import Haze.Chain.Apply

/-!
# What an accepted block satisfies

`checkBlock` is a long chain of checks. `accepted_of_checkBlock` turns its success into one record of
facts, `Accepted`; every later proof about an applied block starts from that record and never unfolds
the checks again. Each loop has its own specification first, by the loop rule.
-/

namespace Haze

open Checked

variable {P : Crypto}

/-! ## Standalone checks

The checks that need no state. Of a payment they say that it has one kernel and is balanced on its own. -/

/-- A payment that carries a registry fee: one kernel, balanced on its own. -/
structure IsFeePayment (tx : Transaction P) : Prop where
  oneKernel : ∃ k, tx.kernels = [k]
  valid : tx.validate = true

theorem isFeePayment_of_check {ε : Type} {floor : UInt64} {invalid : ε} {tx : Transaction P}
    (h : (checkFeePayment floor invalid tx).isOk = true) : IsFeePayment tx := by
  have hok : checkFeePayment floor invalid tx = .ok () := by
    cases hc : checkFeePayment floor invalid tx with
    | error e => rw [hc] at h; cases h
    | ok u => rfl
  obtain ⟨⟨k, hk, -⟩, hval⟩ := checkFeePayment_ok hok
  exact ⟨⟨k, hk⟩, hval⟩

-- the last of a sequence of checks that all passed
theorem isOk_of_seq {ε : Type} {x y : Except ε Unit} (h : (x >>= fun _ => y).isOk = true) :
    y.isOk = true := by
  cases x with
  | error e => cases h
  | ok u => exact h

-- an early return that was not taken
theorem isOk_of_unless {ε : Type} {c : Prop} [Decidable c] {e : ε} {k : Unit → Except ε Unit}
    {y : Except ε Unit} (h : (if c then (throw e >>= k) else y).isOk = true) : y.isOk = true := by
  split at h
  · cases h
  · exact h

theorem RegisterNameOp.isFeePayment {op : RegisterNameOp P} (h : op.validateStandalone.isOk = true) :
    IsFeePayment op.feePayment := by
  have hrest := isOk_of_seq (x := validateName op.name) h
  exact isFeePayment_of_check (isOk_of_unless hrest)

theorem MintAssetOp.isFeePayment {op : MintAssetOp P} (h : op.validateStandalone.isOk = true) :
    IsFeePayment op.feePayment := by
  have hrest := isOk_of_seq (x := validateAssetId op.assetId) h
  -- metadata, collection fields, allowlist proof, signature
  iterate 4 replace hrest := isOk_of_unless hrest
  exact isFeePayment_of_check hrest

/-! ## Identifiers met in one block

`names_this_block`, `assets_this_block` and `collections_this_block` follow one discipline: an
operation that creates an identifier finds it neither in the registry nor among those seen, one that
transfers it finds it in the registry and not among those seen. -/

section Identifiers

variable {V : Type} {m : KeyedMap String V} {ids : List String} {seen : Finset String} {k : String}

/-- The identifiers a block creates. -/
structure Registered (m : KeyedMap String V) (ids : List String) (seen : Finset String) : Prop where
  nodup : ids.Nodup
  absent : ∀ k ∈ ids, k ∉ m
  subset : ∀ k ∈ ids, k ∈ seen

/-- The identifiers a block transfers. -/
structure Transferred (m : KeyedMap String V) (ids : List String) (seen : Finset String) :
    Prop where
  nodup : ids.Nodup
  present : ∀ k ∈ ids, k ∈ m
  subset : ∀ k ∈ ids, k ∈ seen

theorem Registered.nil (m : KeyedMap String V) : Registered m [] ∅ :=
  ⟨List.nodup_nil, by simp, by simp⟩

theorem Transferred.nil (m : KeyedMap String V) (seen : Finset String) : Transferred m [] seen :=
  ⟨List.nodup_nil, by simp, by simp⟩

-- an identifier not seen before can follow those that were
theorem nodup_snoc (hnd : ids.Nodup) (hsub : ∀ i ∈ ids, i ∈ seen) (hk : k ∉ seen) :
    (ids ++ [k]).Nodup ∧ ∀ i ∈ ids ++ [k], i ∈ insert k seen := by
  refine ⟨?_, ?_⟩
  · rw [List.nodup_append']
    refine ⟨hnd, List.nodup_singleton k, ?_⟩
    intro i hi hi'
    obtain rfl := List.mem_singleton.mp hi'
    exact hk (hsub i hi)
  · intro i hi
    rcases List.mem_append.mp hi with hi | hi
    · exact Finset.mem_insert_of_mem (hsub i hi)
    · rw [List.mem_singleton.mp hi]
      exact Finset.mem_insert_self k seen

theorem Registered.snoc (h : Registered m ids seen) (hm : k ∉ m) (hk : k ∉ seen) :
    Registered m (ids ++ [k]) (insert k seen) := by
  obtain ⟨hnd, hsub⟩ := nodup_snoc h.nodup h.subset hk
  refine ⟨hnd, ?_, hsub⟩
  intro i hi
  rcases List.mem_append.mp hi with hi | hi
  · exact h.absent i hi
  · rw [List.mem_singleton.mp hi]
    exact hm

theorem Transferred.snoc (h : Transferred m ids seen) (hm : k ∈ m) (hk : k ∉ seen) :
    Transferred m (ids ++ [k]) (insert k seen) := by
  obtain ⟨hnd, hsub⟩ := nodup_snoc h.nodup h.subset hk
  refine ⟨hnd, ?_, hsub⟩
  intro i hi
  rcases List.mem_append.mp hi with hi | hi
  · exact h.present i hi
  · rw [List.mem_singleton.mp hi]
    exact hm

end Identifiers

namespace ChainState

variable {s : ChainState P} {b : Block P}

/-! ## The loops

Each loop checks one kind of operation and carries along what it has seen. What it has established in the
end is a structure, which grows with every element. -/

/-- What the registrations processed so far have established. -/
structure NamesChecked (s : ChainState P) (spent : Finset (Commitment P))
    (ops : List (RegisterNameOp P)) (acc : NameCheck P) : Prop where
  payments : ∀ op ∈ ops, IsFeePayment op.feePayment
  claimed : Coins.Claimed s.utxos spent (ops.flatMap fun op => op.feePayment.spent) acc.spent
  registered : Registered s.nameRegistry (ops.map RegisterNameOp.name) acc.names

theorem namesChecked_of_foldlM {height : UInt64} {spent : Finset (Commitment P)}
    {ops : List (RegisterNameOp P)} {acc : NameCheck P}
    (h : ops.foldlM (s.checkNameOp height) ⟨spent, ∅, s.nameRegistry⟩ = some acc) :
    NamesChecked s spent ops acc := by
  refine foldlM_induct (motive := NamesChecked s spent) ?_ ?_ h
  · exact ⟨by simp, Coins.Claimed.nil _ _, Registered.nil _⟩
  · intro ops op acc acc' ih hop
    simp only [checkNameOp, Option.bind_eq_bind, Option.bind_eq_some_iff, ensure_eq_some,
      exists_const, Option.pure_def, Option.some.injEq, Bool.and_eq_true, decide_eq_true_eq] at hop
    obtain ⟨hval, ⟨hreg, hseen⟩, spent', hclaim, rfl⟩ := hop
    refine ⟨?_, ?_, ?_⟩
    · rw [List.forall_mem_append]
      exact ⟨ih.payments, by simpa using op.isFeePayment hval⟩
    · rw [List.flatMap_append, List.flatMap_singleton]
      exact ih.claimed.append (Coins.claimed_of_claimAll hclaim)
    · rw [List.map_append]
      exact ih.registered.snoc hreg hseen

theorem transferred_of_foldlM {ops : List (TransferNameOp P)} {init acc : NameCheck P}
    (h : ops.foldlM s.checkTransferOp init = some acc) :
    Transferred s.nameRegistry (ops.map TransferNameOp.name) acc.names ∧ acc.spent = init.spent := by
  refine foldlM_induct (motive := fun ops acc =>
    Transferred s.nameRegistry (ops.map TransferNameOp.name) acc.names ∧ acc.spent = init.spent)
    ?_ ?_ h
  · exact ⟨Transferred.nil _ _, rfl⟩
  · rintro ops op acc acc' ⟨ih, hspent⟩ hop
    simp only [checkTransferOp, Option.bind_eq_bind, Option.bind_eq_some_iff, ensure_eq_some,
      exists_const, Option.pure_def, Option.some.injEq, decide_eq_true_eq] at hop
    obtain ⟨hseen, current, hcur, -, rfl⟩ := hop
    rw [List.map_append]
    exact ⟨ih.snoc (Finmap.mem_of_lookup_eq_some hcur) hseen, hspent⟩

theorem launched_of_foldlM {height : UInt64} {ops : List (LaunchCollectionOp P)}
    {acc : LaunchCheck P}
    (h : ops.foldlM (s.checkLaunchOp height) ⟨∅, s.collectionRegistry⟩ = some acc) :
    Registered s.collectionRegistry (ops.map LaunchCollectionOp.collectionId) acc.collections := by
  refine foldlM_induct (motive := fun ops acc =>
    Registered s.collectionRegistry (ops.map LaunchCollectionOp.collectionId) acc.collections)
    (Registered.nil _) ?_ h
  intro ops op acc acc' ih hop
  simp only [checkLaunchOp, Option.bind_eq_bind, Option.bind_eq_some_iff, ensure_eq_some, exists_const,
    Option.pure_def, Option.some.injEq, Bool.and_eq_true, decide_eq_true_eq] at hop
  obtain ⟨-, ⟨hreg, hseen⟩, rfl⟩ := hop
  rw [List.map_append]
  exact ih.snoc hreg hseen

/-- A collection mint is counted once, below some limit; any other mint is not counted. -/
theorem checkMintCount_cases {collections : KeyedMap String (CollectionRecord P)}
    {acc : MintCheck P} {op : MintAssetOp P} {r : KeyedMap MintKey UInt32 × List MintKey}
    (h : checkMintCount b collections acc op = some r) :
    (op.countKey = none ∧ r = (acc.counts, acc.mints)) ∨
      ∃ key limit, op.countKey = some key ∧ (acc.counts.lookup key).getD 0 < limit ∧
        r = (Counter.bump acc.counts key, acc.mints ++ [key]) := by
  unfold checkMintCount at h
  split at h
  -- the operation names a collection and a phase: its counter goes up, below the limit of the phase
  next collectionId phaseIndex hc hp =>
    simp only [checkCollectionMint, Option.bind_eq_bind, Option.bind_eq_some_iff, ensure_eq_some,
      exists_const, Option.pure_def, Option.some.injEq, decide_eq_true_eq] at h
    obtain ⟨⟨collection, -, phase, -, -, -, excess, -, sig, -, -, hlimit⟩, rfl⟩ := h
    exact Or.inr ⟨_, phase.perWalletLimit, by simp [MintAssetOp.countKey, hc, hp], hlimit, rfl⟩
  -- it does not, and is not counted
  next hnone =>
    cases h
    refine Or.inl ⟨?_, rfl⟩
    unfold MintAssetOp.countKey
    split
    next c p hc hp => exact absurd hp (hnone c p hc)
    next => rfl

/-- What the mints processed so far have established. -/
structure MintsChecked (s : ChainState P) (spent : Finset (Commitment P))
    (ops : List (MintAssetOp P)) (acc : MintCheck P) : Prop where
  payments : ∀ op ∈ ops, IsFeePayment op.feePayment
  claimed : Coins.Claimed s.utxos spent (ops.flatMap fun op => op.feePayment.spent) acc.spent
  registered : Registered s.assetRegistry (ops.map MintAssetOp.assetId) acc.assets
  mints : acc.mints = ops.filterMap MintAssetOp.countKey
  counts : Counter.Counts s.collectionMintCounts acc.mints acc.counts

theorem mintsChecked_of_foldlM {collections : KeyedMap String (CollectionRecord P)}
    {spent : Finset (Commitment P)} {ops : List (MintAssetOp P)} {acc : MintCheck P}
    (h : ops.foldlM (s.checkMintOp b collections)
      ⟨spent, ∅, s.assetRegistry, s.collectionMintCounts, []⟩ = some acc) :
    MintsChecked s spent ops acc := by
  refine foldlM_induct (motive := MintsChecked s spent) ?_ ?_ h
  · exact ⟨by simp, Coins.Claimed.nil _ _, Registered.nil _, rfl, Counter.Counts.nil _⟩
  -- one more mint has passed all its checks
  · intro ops op acc acc' ih hop
    simp only [checkMintOp, Option.bind_eq_bind, Option.bind_eq_some_iff, ensure_eq_some,
      exists_const, Option.pure_def, Option.some.injEq, Bool.and_eq_true, decide_eq_true_eq] at hop
    obtain ⟨hval, ⟨hreg, hseen⟩, spent', hclaim, counted, hcount, -, rfl⟩ := hop
    refine ⟨?_, ?_, ?_, ?_, ?_⟩
    · rw [List.forall_mem_append]
      exact ⟨ih.payments, by simpa using op.isFeePayment hval⟩
    · rw [List.flatMap_append, List.flatMap_singleton]
      exact ih.claimed.append (Coins.claimed_of_claimAll hclaim)
    · rw [List.map_append]
      exact ih.registered.snoc hreg hseen
    · rcases checkMintCount_cases hcount with ⟨hkey, rfl⟩ | ⟨key, limit, hkey, -, rfl⟩
      · simp [List.filterMap_append, hkey, ih.mints]
      · simp [List.filterMap_append, hkey, ih.mints]
    · rcases checkMintCount_cases hcount with ⟨-, rfl⟩ | ⟨key, limit, -, hlimit, rfl⟩
      · exact ih.counts
      · exact ih.counts.snoc hlimit

/-- Transfers touch the identifiers seen and the registry, nothing else of the accumulator. -/
structure TransfersChecked (s : ChainState P) (init : MintCheck P)
    (ops : List (TransferAssetOp P)) (acc : MintCheck P) : Prop where
  transferred : Transferred s.assetRegistry (ops.map TransferAssetOp.assetId) acc.assets
  counts : acc.counts = init.counts
  mints : acc.mints = init.mints

theorem transfersChecked_of_foldlM {ops : List (TransferAssetOp P)} {init acc : MintCheck P}
    (h : ops.foldlM (s.checkTransferAssetOp b) init = some acc) :
    TransfersChecked s init ops acc := by
  refine foldlM_induct (motive := TransfersChecked s init) ?_ ?_ h
  · exact ⟨Transferred.nil _ _, rfl, rfl⟩
  · intro ops op acc acc' ih hop
    simp only [checkTransferAssetOp, Option.bind_eq_bind, Option.bind_eq_some_iff, ensure_eq_some,
      exists_const, Option.pure_def, Option.some.injEq, decide_eq_true_eq] at hop
    obtain ⟨hseen, current, hcur, -, -, -, rfl⟩ := hop
    refine ⟨?_, ih.counts, ih.mints⟩
    rw [List.map_append]
    exact ih.transferred.snoc (Finmap.mem_of_lookup_eq_some hcur) hseen

end ChainState

/-! ## Stake registrations

A registration adds a validator at the end, or takes the place of the one with its stake. -/

/-- The validator set after a list of accepted registrations. -/
def registerAll (validators : List (Validator P)) (ops : List (RegisterValidatorOp P)) :
    List (Validator P) :=
  ops.foldl (fun vs op => upsertValidator vs ⟨op.commitment, op.value, op.proof⟩) validators

theorem mem_upsertValidator {validators : List (Validator P)} {entry v : Validator P}
    (h : v ∈ upsertValidator validators entry) : v ∈ validators ∨ v = entry := by
  unfold upsertValidator at h
  split at h
  · exact List.mem_or_eq_of_mem_set h
  · simpa using h

/-- A validator was there before or is one of those registered. -/
theorem mem_registerAll {validators : List (Validator P)} {ops : List (RegisterValidatorOp P)}
    {v : Validator P} (h : v ∈ registerAll validators ops) :
    v ∈ validators ∨ ∃ op ∈ ops, v.commitment = op.commitment := by
  induction ops using List.reverseRecOn with
  | nil => exact Or.inl h
  | append_singleton ops op ih =>
      have hstep : registerAll validators (ops ++ [op]) =
          upsertValidator (registerAll validators ops) ⟨op.commitment, op.value, op.proof⟩ := by
        simp [registerAll]
      rw [hstep] at h
      rcases mem_upsertValidator h with h | rfl
      · rcases ih h with h | ⟨op', hop', heq⟩
        · exact Or.inl h
        · exact Or.inr ⟨op', List.mem_append_left _ hop', heq⟩
      · exact Or.inr ⟨op, by simp, rfl⟩

theorem tryRegisterValidator_eq_some_iff {validators validators' : List (Validator P)}
    {utxos : Finset (Commitment P)} {op : RegisterValidatorOp P} :
    tryRegisterValidator validators utxos op = some validators' ↔
      op.validateStandalone.isOk = true ∧ op.commitment ∈ utxos ∧
        admitsValidator validators op = true ∧
        upsertValidator validators ⟨op.commitment, op.value, op.proof⟩ = validators' := by
  simp only [tryRegisterValidator, Option.bind_eq_bind, Option.bind_eq_some_iff, ensure_eq_some,
    exists_const, Option.pure_def, Option.some.injEq, decide_eq_true_eq]

theorem registered_of_foldlM {validators validators' : List (Validator P)}
    {utxos : Finset (Commitment P)} {ops : List (RegisterValidatorOp P)}
    (h : ops.foldlM (fun vs op => tryRegisterValidator vs utxos op) validators = some validators') :
    validators' = registerAll validators ops ∧ ∀ op ∈ ops, op.commitment ∈ utxos := by
  refine foldlM_induct (motive := fun ops vs =>
    vs = registerAll validators ops ∧ ∀ op ∈ ops, op.commitment ∈ utxos) ⟨rfl, by simp⟩ ?_ h
  rintro ops op vs vs' ⟨rfl, hmem⟩ hop
  obtain ⟨-, hutxo, -, rfl⟩ := tryRegisterValidator_eq_some_iff.mp hop
  refine ⟨by simp [registerAll], ?_⟩
  rw [List.forall_mem_append]
  exact ⟨hmem, by simpa using hutxo⟩

/-! ## The whole block

All that an accepted block has shown, put together; a check that no proof uses is not kept. From here on
nothing unfolds `checkBlock`. -/

/-- The keys a block adds to a registry and the keys it changes there. -/
structure Editable {V : Type} (m : KeyedMap String V) (new upd : List String) : Prop where
  absent : ∀ k ∈ new, k ∉ m
  nodup : upd.Nodup
  present : ∀ k ∈ upd, k ∈ m

theorem Editable.of_checked {V : Type} {m : KeyedMap String V} {new upd : List String}
    {seen seen' : Finset String} (hnew : Registered m new seen) (hupd : Transferred m upd seen') :
    Editable m new upd :=
  ⟨hnew.absent, hupd.nodup, hupd.present⟩

theorem Editable.disjoint {V : Type} {m : KeyedMap String V} {new upd : List String}
    (h : Editable m new upd) : ∀ k ∈ new, k ∉ upd := by
  intro k hnew hupd
  exact h.absent k hnew (h.present k hupd)

namespace ChainState

variable {s : ChainState P} {b : Block P}

/-- Either the block follows the tip, or it is a genesis block on a fresh state. -/
theorem connects_iff : s.connects b = true ↔
    (b.height.toNat = s.currentHeight.toNat + 1 ∧ b.header.prevHash = s.lastBlockHash) ∨
      (b.height = 0 ∧ s.currentHeight = 0 ∧ s.lastBlockHash = zeroHash) := by
  unfold connects
  split
  next hne =>
    simp only [Bool.and_eq_true, beq_iff_eq, hne, false_and, false_or, and_assoc]
  next heq =>
    have hh : b.height.toNat = s.currentHeight.toNat + 1 := not_not.mp heq
    have hpos : b.height ≠ 0 := by
      intro h0
      rw [h0] at hh
      simp at hh
    simp only [beq_iff_eq, hh, hpos, true_and, false_and, or_false]

/-- What holds when every check has passed. -/
structure Accepted (s : ChainState P) (b : Block P) (c : Candidate P) : Prop where
  connected : (b.height.toNat = s.currentHeight.toNat + 1 ∧ b.header.prevHash = s.lastBlockHash) ∨
    (b.height = 0 ∧ s.currentHeight = 0 ∧ s.lastBlockHash = zeroHash)
  bodyValid : b.body.validateWithReward b.reward = true
  bodyUnlocked : spendsLockedOutputEarly b.body.inputs b.height = false
  bodyInputs : b.height ≠ 0 → ∀ c ∈ b.body.spent, c ∈ s.utxos
  payments : ∀ tx ∈ b.payments, IsFeePayment tx
  paid : ∃ taken, Coins.Claimed s.utxos b.body.spent.toFinset
    (b.payments.flatMap Transaction.spent) taken
  names : Editable s.nameRegistry (b.nameOps.map RegisterNameOp.name)
    (b.transferOps.map TransferNameOp.name)
  assets : Editable s.assetRegistry (b.mintOps.map MintAssetOp.assetId)
    (b.transferAssetOps.map TransferAssetOp.assetId)
  collections : ∀ k ∈ b.launchCollectionOps.map LaunchCollectionOp.collectionId,
    k ∉ s.collectionRegistry
  mints : c.mints = b.mintOps.filterMap MintAssetOp.countKey
  counts : Counter.Counts s.collectionMintCounts c.mints c.counts
  validators : c.validators = registerAll s.activeValidators b.validatorOps
  stakes : ∀ op ∈ b.validatorOps, op.commitment ∈ s.utxos

theorem accepted_of_checkBlock {c : Candidate P} (h : s.checkBlock b = some c) :
    Accepted s b c := by
  simp only [checkBlock, Option.bind_eq_bind, Option.bind_eq_some_iff, ensure_eq_some, exists_const,
    Option.pure_def, Option.some.injEq] at h
  obtain ⟨hconn, _, -, hbody, -, hlock, hins, named, hnamed, names, hnames, -, launched, hlaunched,
    -, minted, hminted, assets, hassets, -, validators, hvalidators, rfl⟩ := h
  have hN := namesChecked_of_foldlM hnamed
  obtain ⟨hT, hspent⟩ := transferred_of_foldlM hnames
  have hM := mintsChecked_of_foldlM hminted
  have hA := transfersChecked_of_foldlM hassets
  obtain ⟨hV, hstakes⟩ := registered_of_foldlM hvalidators
  -- what the loops have established goes field by field to where it is needed
  refine
    { connected := connects_iff.mp hconn
      bodyValid := hbody
      bodyUnlocked := by simpa using hlock
      bodyInputs := ?_
      payments := ?_
      paid := ?_
      names := .of_checked hN.registered hT
      assets := .of_checked hM.registered hA.transferred
      collections := (launched_of_foldlM hlaunched).absent
      mints := hA.mints.trans hM.mints
      counts := ?_
      validators := hV
      stakes := hstakes }
  · intro hheight c hc
    simp only [Bool.or_eq_true, beq_iff_eq, hheight, false_or, List.all_eq_true,
      decide_eq_true_eq] at hins
    exact hins c hc
  · intro tx htx
    rcases List.mem_append.mp htx with htx | htx
    · obtain ⟨op, hop, rfl⟩ := List.mem_map.mp htx
      exact hN.payments op hop
    · obtain ⟨op, hop, rfl⟩ := List.mem_map.mp htx
      exact hM.payments op hop
  · refine ⟨minted.spent, ?_⟩
    have hclaimed := hM.claimed
    rw [hspent] at hclaimed
    simp only [Block.payments, List.flatMap_append, List.flatMap_map]
    exact hN.claimed.append hclaimed
  · show Counter.Counts _ assets.mints assets.counts
    rw [hA.counts, hA.mints]
    exact hM.counts

/-- Applying a block is committing the candidate that its checks have built. -/
theorem applyLinearBlock_eq_some_iff {s' : ChainState P} {δ : AppliedDelta P} :
    s.applyLinearBlock b = some (s', δ) ↔
      ∃ c, s.checkBlock b = some c ∧ s.commitBlock b c = (s', δ) :=
  Option.map_eq_some_iff

/-- Applying a block is committing the candidate of an accepted one. -/
theorem applyLinearBlock_eq_some {s' : ChainState P} {δ : AppliedDelta P}
    (h : s.applyLinearBlock b = some (s', δ)) : ∃ c, Accepted s b c ∧ s' = (s.commitBlock b c).1 := by
  obtain ⟨c, hc, heq⟩ := Option.map_eq_some_iff.mp h
  exact ⟨c, accepted_of_checkBlock hc, by rw [heq]⟩

end ChainState

end Haze
