import Haze.Chain.Checks
import Haze.Proposer.Roots

/-!
# The proposer's filters against the rules of consensus

Two hand-written copies of the same rules: the proposer's loops skip an operation that the chain would
refuse, the chain's loops refuse the whole block. Each pair of loops is related by the rule
`Selects.foldlM_kept`: while the accumulators agree, what the proposer keeps the chain accepts.

That goes through for transfers, launches and stake registrations. A fee payment that lists one input
twice passes the proposer, which asks of each input only that nothing *before* spent it, and a mint
outside a collection passes without its payment condition being looked at.
-/

namespace Haze

open Checked

variable {P : Crypto}

namespace Proposer

variable {e : Env P} {s : ChainState P}

/-! ## Names

A registration is kept when its fee inputs are unspent and its name is free. The chain claims the inputs one
after another and therefore refuses a payment that names one twice. -/

theorem selects_nameOp : Selects (selectNameOp s) (keepsNameOp s) NameSelection.nameOps where
  keep acc op h := by simp [selectNameOp, h]
  skip acc op h := by simp [selectNameOp, h]

theorem inputsOk_iff {spent : Finset (Commitment P)} {tx : Transaction P} :
    inputsOk s spent tx = true ↔ ∀ c ∈ tx.spent, c ∈ s.utxos ∧ c ∉ spent := by
  simp [inputsOk, Transaction.spent]

/-- A payment that the proposer takes is claimed by the chain, when it repeats no input. -/
theorem claimAll_of_unspent {spent : Finset (Commitment P)} {tx : Transaction P}
    (h : ∀ c ∈ tx.spent, c ∈ s.utxos ∧ c ∉ spent) (hnodup : tx.spent.Nodup) :
    Coins.claimAll s.utxos spent tx.spent = some (Coins.create spent tx.spent) :=
  Coins.claimAll_eq_some hnodup (fun c hc => (h c hc).1) fun c hc => (h c hc).2

/-- A registry that has the keys of the state and those of the block, after one more. -/
theorem mem_registry_insert {V : Type} {registry old : KeyedMap String V} {seen : Finset String}
    (h : ∀ k, k ∈ registry ↔ k ∈ old ∨ k ∈ seen) (name : String) (record : V) (k : String) :
    k ∈ registry.insert name record ↔ k ∈ old ∨ k ∈ insert name seen := by
  rw [Finmap.mem_insert, h, Finset.mem_insert]
  tauto

/-- The accumulators of the two loops over registrations. -/
structure SameNames (s : ChainState P) (acc : NameSelection P) (chk : ChainState.NameCheck P) :
    Prop where
  spent : chk.spent = acc.spentThisBlock
  registry : chk.registry = acc.registry
  names : chk.names = (acc.nameOps.map RegisterNameOp.name).toFinset
  mem_iff : ∀ k, k ∈ acc.registry ↔ k ∈ s.nameRegistry ∨ k ∈ chk.names

/-- A kept registration is accepted, when its payment repeats no input. -/
theorem SameNames.step {acc : NameSelection P} {chk : ChainState.NameCheck P}
    {op : RegisterNameOp P} (h : SameNames s acc chk) (hkeep : keepsNameOp s acc op = true)
    (hgood : op.validateStandalone.isOk = true ∧ op.feePayment.spent.Nodup) :
    ∃ chk', s.checkNameOp (nextHeight s) chk op = some chk' ∧
      SameNames s (selectNameOp s acc op) chk' := by
  obtain ⟨hok, hnew⟩ := Bool.and_eq_true_iff.mp hkeep
  have hins := inputsOk_iff.mp hok
  have hname : op.name ∉ acc.registry := of_decide_eq_true hnew
  rw [h.mem_iff, not_or] at hname
  have hclaim := claimAll_of_unspent hins hgood.2
  rw [← h.spent] at hclaim
  refine ⟨⟨Coins.create chk.spent op.feePayment.spent, insert op.name chk.names,
    chk.registry.insert op.name (op.record (nextHeight s))⟩, ?_, ?_⟩
  · simp only [ChainState.checkNameOp, Option.bind_eq_bind, Option.bind_eq_some_iff, ensure_eq_some,
      exists_const, Bool.and_eq_true, decide_eq_true_eq]
    exact ⟨hgood.1, hname, _, hclaim, rfl⟩
  · simp only [selectNameOp, hkeep]
    refine ⟨?_, ?_, ?_, ?_⟩
    · rw [h.spent]
      rfl
    · rw [h.registry]
      rfl
    · ext k
      simp [h.names]
    · exact mem_registry_insert h.mem_iff op.name _

/-! ## Transfers of names

Both loops go by the owner in the state, by the names the block has touched, and by a signature. -/

theorem selects_transferOp :
    Selects (selectTransferOp s) (fun acc op => (keepsTransferOp s acc op).isSome)
      TransferSelection.transferOps := by
  apply Selects.ofOption
  · exact fun acc op current hcur => by simp [selectTransferOp, hcur]
  · exact fun acc op hnone => by simp [selectTransferOp, hnone]

structure SameTransfers (acc : TransferSelection P) (chk : ChainState.NameCheck P) : Prop where
  names : chk.names = acc.namesTouched
  registry : chk.registry = acc.registry

theorem SameTransfers.step {acc : TransferSelection P} {chk : ChainState.NameCheck P}
    {op : TransferNameOp P} (h : SameTransfers acc chk)
    (hkeep : (keepsTransferOp s acc op).isSome = true) :
    ∃ chk', s.checkTransferOp chk op = some chk' ∧ SameTransfers (selectTransferOp s acc op) chk' := by
  obtain ⟨current, hcur⟩ := Option.isSome_iff_exists.mp hkeep
  have hparts := hcur
  simp only [keepsTransferOp, Option.bind_eq_bind, Option.bind_eq_some_iff, ensure_eq_some,
    exists_const, Option.pure_def, Option.some.injEq] at hparts
  obtain ⟨hnot, current', hlookup, hsig, rfl⟩ := hparts
  refine ⟨{ chk with
    names := insert op.name chk.names
    registry := chk.registry.insert op.name (op.record current') }, ?_, ?_⟩
  · rw [← h.names] at hnot
    simp only [ChainState.checkTransferOp, Option.bind_eq_bind, Option.bind_eq_some_iff,
      ensure_eq_some, exists_const]
    exact ⟨hnot, _, hlookup, hsig, rfl⟩
  · simp only [selectTransferOp, hcur]
    refine ⟨?_, ?_⟩
    · rw [h.names]
    · rw [h.registry]
      rfl

/-! ## Launches

The proposer keeps a launch that is valid by itself and whose identifier is free in the registry with the
launches so far. -/

theorem selects_launchOp :
    Selects (selectLaunchOp s) keepsLaunchOp LaunchSelection.launchCollectionOps where
  keep acc op h := by simp [selectLaunchOp, h]
  skip acc op h := by simp [selectLaunchOp, h]

structure SameLaunches (s : ChainState P) (acc : LaunchSelection P)
    (chk : ChainState.LaunchCheck P) : Prop where
  registry : chk.registry = acc.registry
  mem_iff : ∀ k, k ∈ acc.registry ↔ k ∈ s.collectionRegistry ∨ k ∈ chk.collections
  kept : ∀ k record, s.collectionRegistry.lookup k = some record → acc.registry.lookup k = some record

theorem SameLaunches.step {acc : LaunchSelection P} {chk : ChainState.LaunchCheck P}
    {op : LaunchCollectionOp P} (h : SameLaunches s acc chk) (hkeep : keepsLaunchOp acc op = true) :
    ∃ chk', s.checkLaunchOp (nextHeight s) chk op = some chk' ∧
      SameLaunches s (selectLaunchOp s acc op) chk' := by
  obtain ⟨hok, hnew⟩ := Bool.and_eq_true_iff.mp hkeep
  have hid : op.collectionId ∉ acc.registry := of_decide_eq_true hnew
  have hids := hid
  rw [h.mem_iff, not_or] at hids
  refine ⟨⟨insert op.collectionId chk.collections,
    chk.registry.insert op.collectionId (op.record (nextHeight s))⟩, ?_, ?_⟩
  · simp only [ChainState.checkLaunchOp, Option.bind_eq_bind, Option.bind_eq_some_iff,
      ensure_eq_some, exists_const, Bool.and_eq_true, decide_eq_true_eq]
    exact ⟨hok, hids, rfl⟩
  · simp only [selectLaunchOp, hkeep]
    refine ⟨?_, ?_, ?_⟩
    · rw [h.registry]
      rfl
    · exact mem_registry_insert h.mem_iff op.collectionId _
    · intro k record hk
      have hold := h.kept k record hk
      have hne : k ≠ op.collectionId := by
        rintro rfl
        exact hid (Finmap.mem_of_lookup_eq_some hold)
      show (acc.registry.insert op.collectionId _).lookup k = some record
      rw [Finmap.lookup_insert_of_ne _ hne]
      exact hold

/-! ## Mints

Mints go through the most conditions: the phase and its window, the allowlist, the limit of the wallet, the
payment kernel and the creator's signature. The two copies ask them in another order, and outside a
collection the proposer does not look at the payment. -/

theorem selects_mintOp {tx : Transaction P} {collections : KeyedMap String (CollectionRecord P)} :
    Selects (selectMintOp e s tx collections)
      (fun acc op => (keepsMintOp e s tx collections acc op).isSome) MintSelection.mintOps := by
  apply Selects.ofOption
  · exact fun acc op counts hcounts => by simp [selectMintOp, hcounts]
  · exact fun acc op hnone => by simp [selectMintOp, hnone]

structure SameMints (s : ChainState P) (acc : MintSelection P) (chk : ChainState.MintCheck P) :
    Prop where
  spent : chk.spent = acc.spentThisBlock
  registry : chk.registry = acc.registry
  counts : chk.counts = acc.counts
  assets : chk.assets = (acc.mintOps.map MintAssetOp.assetId).toFinset
  mem_iff : ∀ k, k ∈ acc.registry ↔ k ∈ s.assetRegistry ∨ k ∈ chk.assets

-- the two copies of the allowlist rule
theorem allowlisted_eq (phase : MintPhase) (op : MintAssetOp P) :
    ChainState.allowlisted phase op = allowlistOk phase op := by
  unfold ChainState.allowlisted allowlistOk
  cases phase.allowlistMerkleRoot <;> cases op.allowlistProof <;> cases op.allowlistLeafIndex <;> rfl

/-- The block that the filters are run for: its height and time, and the kernels it will carry. -/
structure BuiltFor (e : Env P) (s : ChainState P) (excesses : List (Commitment P)) (b : Block P) :
    Prop where
  height : b.height = nextHeight s
  timestamp : b.header.timestamp = e.now
  excesses : ∀ c ∈ excesses, c ∈ b.excesses

theorem BuiltFor.satisfied {excesses : List (Commitment P)} {b : Block P}
    (hb : BuiltFor e s excesses b) {c : Commitment P} (h : c ∈ s.kernelExcesses ∨ c ∈ excesses) :
    s.satisfied b c = true := by
  unfold ChainState.satisfied Block.blockKernelExcesses
  rcases h with h | h
  · simp [h]
  · simp [hb.excesses c h]

/-- A collection mint that is kept passes the rules of its phase, is counted alike, and has its
payment. -/
theorem selectCollectionMint_eq_some {tx : Transaction P}
    {collections : KeyedMap String (CollectionRecord P)} {counts counts' : KeyedMap MintKey UInt32}
    {op : MintAssetOp P} {collectionId : String} {phaseIndex : UInt32} {b : Block P}
    (hb : BuiltFor e s tx.excesses b)
    (h : selectCollectionMint e s tx collections counts op collectionId phaseIndex = some counts') :
    ChainState.checkCollectionMint b collections counts op collectionId phaseIndex = some () ∧
      counts' = Counter.bump counts (collectionId, phaseIndex, P.compress op.ownerPubkey.asPoint) ∧
      s.conditionMet b op.requiredKernelExcess = true := by
  simp only [selectCollectionMint, Option.bind_eq_bind, Option.bind_eq_some_iff, ensure_eq_some,
    exists_const, Option.pure_def, Option.some.injEq, Bool.not_eq_true', Bool.or_eq_false_iff,
    Bool.or_eq_true, decide_eq_false_iff_not, decide_eq_true_eq] at h
  obtain ⟨collection, hcol, phase, hphase, ⟨hstart, hend⟩, hallow, hlimit, excess, hexcess, hpaid,
    sig, hsig, hverify, rfl⟩ := h
  refine ⟨?_, rfl, ?_⟩
  · simp only [ChainState.checkCollectionMint, Option.bind_eq_bind, Option.bind_eq_some_iff,
      ensure_eq_some, exists_const, Bool.and_eq_true, decide_eq_true_eq]
    refine ⟨collection, hcol, phase, hphase, ?_, ?_, excess, hexcess, sig, hsig, hverify, ?_⟩
    · rw [hb.timestamp]
      exact ⟨UInt64.not_lt.mp hstart, UInt64.not_le.mp hend⟩
    · rw [allowlisted_eq]
      exact hallow
    · exact UInt32.not_le.mp hlimit
  · rw [hexcess]
    exact hb.satisfied hpaid

/-- What the chain asks of a kept mint beyond what the proposer asked. -/
structure MintGood (s : ChainState P) (b : Block P) (op : MintAssetOp P) : Prop where
  valid : op.validateStandalone.isOk = true
  nodup : op.feePayment.spent.Nodup
  paid : op.collectionId = none → s.conditionMet b op.requiredKernelExcess = true

/-- A kept mint is counted as the chain counts it, and its payment is there. -/
theorem checkMintCount_of_keeps {tx : Transaction P}
    {collections : KeyedMap String (CollectionRecord P)} {acc : MintSelection P}
    {chk : ChainState.MintCheck P} {op : MintAssetOp P} {counts : KeyedMap MintKey UInt32}
    {b : Block P} (hb : BuiltFor e s tx.excesses b) (h : SameMints s acc chk)
    (hkeep : keepsMintOp e s tx collections acc op = some counts) (hgood : MintGood s b op) :
    (∃ mints, ChainState.checkMintCount b collections chk op = some (counts, mints)) ∧
      s.conditionMet b op.requiredKernelExcess = true := by
  have hfields := op.fields_of_isOk hgood.valid
  unfold keepsMintOp at hkeep
  split at hkeep
  · cases hkeep
  · cases hc : op.collectionId with
    | none =>
        rw [hc] at hkeep
        refine ⟨⟨chk.mints, ?_⟩, hgood.paid hc⟩
        have hcounts : acc.counts = counts := Option.some.inj hkeep
        simp only [ChainState.checkMintCount, hc, h.counts, hcounts]
    | some collectionId =>
        rw [hc] at hfields
        obtain ⟨phaseIndex, hp⟩ := Option.isSome_iff_exists.mp hfields.symm
        rw [hc, hp] at hkeep
        obtain ⟨hcheck, hcounts, hpaid⟩ := selectCollectionMint_eq_some hb hkeep
        rw [← h.counts] at hcheck hcounts
        refine ⟨⟨chk.mints ++ [(collectionId, phaseIndex, P.compress op.ownerPubkey.asPoint)], ?_⟩,
          hpaid⟩
        simp only [ChainState.checkMintCount, hc, hp, hcheck, hcounts]
        rfl

theorem keepsMintOp_inputs {tx : Transaction P} {collections : KeyedMap String (CollectionRecord P)}
    {acc : MintSelection P} {op : MintAssetOp P} {counts : KeyedMap MintKey UInt32}
    (hkeep : keepsMintOp e s tx collections acc op = some counts) :
    (∀ c ∈ op.feePayment.spent, c ∈ s.utxos ∧ c ∉ acc.spentThisBlock) ∧
      op.assetId ∉ acc.registry := by
  unfold keepsMintOp at hkeep
  split at hkeep
  · cases hkeep
  next hnot =>
    simp only [Bool.or_eq_true, Bool.not_eq_true', decide_eq_true_eq, not_or,
      Bool.not_eq_false] at hnot
    exact ⟨inputsOk_iff.mp hnot.1, hnot.2⟩

theorem SameMints.step {tx : Transaction P} {collections : KeyedMap String (CollectionRecord P)}
    {acc : MintSelection P} {chk : ChainState.MintCheck P} {op : MintAssetOp P} {b : Block P}
    (hb : BuiltFor e s tx.excesses b) (h : SameMints s acc chk)
    (hkeep : (keepsMintOp e s tx collections acc op).isSome = true) (hgood : MintGood s b op) :
    ∃ chk', s.checkMintOp b collections chk op = some chk' ∧
      SameMints s (selectMintOp e s tx collections acc op) chk' := by
  obtain ⟨counts, hcounts⟩ := Option.isSome_iff_exists.mp hkeep
  obtain ⟨hins, hasset⟩ := keepsMintOp_inputs hcounts
  obtain ⟨⟨mints, hcount⟩, hpaid⟩ := checkMintCount_of_keeps hb h hcounts hgood
  rw [h.mem_iff, not_or] at hasset
  have hclaim := claimAll_of_unspent hins hgood.nodup
  rw [← h.spent] at hclaim
  refine ⟨⟨Coins.create chk.spent op.feePayment.spent, insert op.assetId chk.assets,
    chk.registry.insert op.assetId (op.record b.height), counts, mints⟩, ?_, ?_⟩
  · simp only [ChainState.checkMintOp, Option.bind_eq_bind, Option.bind_eq_some_iff, ensure_eq_some,
      exists_const, Bool.and_eq_true, decide_eq_true_eq]
    exact ⟨hgood.valid, hasset, _, hclaim, _, hcount, hpaid, rfl⟩
  · simp only [selectMintOp, hcounts]
    refine ⟨?_, ?_, rfl, ?_, ?_⟩
    · rw [h.spent]
    · rw [h.registry, hb.height]
      rfl
    · ext k
      simp [h.assets]
    · exact mem_registry_insert h.mem_iff op.assetId _

/-! ## Transfers of assets

A sale needs its payment kernel, on the chain or in the block, and a royalty where the collection charges
one. -/

theorem selects_transferAssetOp {excesses : List (Commitment P)}
    {collections : KeyedMap String (CollectionRecord P)} :
    Selects (selectTransferAssetOp s excesses collections)
      (fun acc op => (keepsTransferAssetOp s excesses collections acc op).isSome)
      AssetTransferSelection.transferAssetOps := by
  apply Selects.ofOption
  · exact fun acc op current hcur => by simp [selectTransferAssetOp, hcur]
  · exact fun acc op hnone => by simp [selectTransferAssetOp, hnone]

structure SameAssetTransfers (acc : AssetTransferSelection P) (chk : ChainState.MintCheck P) :
    Prop where
  assets : chk.assets = acc.assetsTouched
  registry : chk.registry = acc.registry

/-- The proposer reads the royalty from a snapshot that also has this block's launches; what the
state has is there too. -/
theorem royaltyMet_of_royaltyOk {excesses : List (Commitment P)}
    {collections : KeyedMap String (CollectionRecord P)} {b : Block P} {current : AssetRecord P}
    {op : TransferAssetOp P} (hb : BuiltFor e s excesses b)
    (hkept : ∀ k record, s.collectionRegistry.lookup k = some record →
      collections.lookup k = some record)
    (h : royaltyOk s excesses collections current op = true) :
    s.royaltyMet b current op = true := by
  unfold ChainState.royaltyMet
  split
  next excess collection hexcess hcollection =>
    split
    next hbps =>
      obtain ⟨id, hid, hlookup⟩ := Option.bind_eq_some_iff.mp hcollection
      unfold royaltyOk at h
      simp only [hexcess, Option.isSome_some, if_true, hid, Option.bind_some, hkept id _ hlookup,
        hbps] at h
      cases hroyalty : op.requiredRoyaltyKernelExcess with
      | none =>
          rw [hroyalty] at h
          cases h
      | some c =>
          rw [hroyalty] at h
          exact hb.satisfied (by simpa using h)
    next => rfl
  next => rfl

theorem SameAssetTransfers.step {excesses : List (Commitment P)}
    {collections : KeyedMap String (CollectionRecord P)} {acc : AssetTransferSelection P}
    {chk : ChainState.MintCheck P} {op : TransferAssetOp P} {b : Block P}
    (hb : BuiltFor e s excesses b)
    (hkept : ∀ k record, s.collectionRegistry.lookup k = some record →
      collections.lookup k = some record)
    (h : SameAssetTransfers acc chk)
    (hkeep : (keepsTransferAssetOp s excesses collections acc op).isSome = true) :
    ∃ chk', s.checkTransferAssetOp b chk op = some chk' ∧
      SameAssetTransfers (selectTransferAssetOp s excesses collections acc op) chk' := by
  obtain ⟨current, hcur⟩ := Option.isSome_iff_exists.mp hkeep
  have hparts := hcur
  simp only [keepsTransferAssetOp, Option.bind_eq_bind, Option.bind_eq_some_iff, ensure_eq_some,
    exists_const, Option.pure_def, Option.some.injEq] at hparts
  obtain ⟨hnot, current', hlookup, hsig, hpaid, hroyalty, rfl⟩ := hparts
  have hcondition : s.conditionMet b op.requiredKernelExcess = true := by
    cases hexcess : op.requiredKernelExcess with
    | none => rfl
    | some c =>
        rw [hexcess] at hpaid
        exact hb.satisfied (by simpa using hpaid)
  refine ⟨{ chk with
    assets := insert op.assetId chk.assets
    registry := chk.registry.insert op.assetId (op.record current') }, ?_, ?_⟩
  · rw [← h.assets] at hnot
    simp only [ChainState.checkTransferAssetOp, Option.bind_eq_bind, Option.bind_eq_some_iff,
      ensure_eq_some, exists_const]
    exact ⟨hnot, _, hlookup, hsig, hcondition, royaltyMet_of_royaltyOk hb hkept hroyalty, rfl⟩
  · simp only [selectTransferAssetOp, hcur]
    refine ⟨?_, ?_⟩
    · rw [h.assets]
    · rw [h.registry]
      rfl

/-! ## Stake registrations

The proposer calls the function of the chain itself. -/

theorem selects_validatorOp :
    Selects (selectValidatorOp s)
      (fun acc op => (tryRegisterValidator acc.validators s.utxos op).isSome)
      ValidatorSelection.validatorOps := by
  apply Selects.ofOption
  · exact fun acc op validators hreg => by simp [selectValidatorOp, hreg]
  · exact fun acc op hnone => by simp [selectValidatorOp, hnone]

theorem validators_step {acc : ValidatorSelection P} {vs : List (Validator P)}
    {op : RegisterValidatorOp P} (h : vs = acc.validators)
    (hkeep : (tryRegisterValidator acc.validators s.utxos op).isSome = true) :
    ∃ vs', tryRegisterValidator vs s.utxos op = some vs' ∧
      vs' = (selectValidatorOp s acc op).validators := by
  obtain ⟨validators, hreg⟩ := Option.isSome_iff_exists.mp hkeep
  refine ⟨validators, by rw [h, hreg], ?_⟩
  simp only [selectValidatorOp, hreg]

/-! ## The whole block

The six loops one after another, on what a round takes out of the mempool. The conditions that remain are
about the two places where the proposer asks for less. -/

section Block

variable (e s) (d : Drained P) (validator : Validator P)

/-- The registrations and mints were admitted by the mempool; the other queues are checked again by
the filters or have no check of their own. -/
structure Drained.Admitted (d : Drained P) : Prop where
  nameOps : ∀ op ∈ d.nameOps, op.validateStandalone.isOk = true
  mintOps : ∀ op ∈ d.mintOps, op.validateStandalone.isOk = true

/-- What a mempool hands out was admitted by it. -/
theorem admitted_drain {m : Mempool P} (h : m.Admitted) : (drain m).1.Admitted := by
  rw [drain_eq]
  refine ⟨?_, ?_⟩
  · intro op hop
    exact h.nameOps op ((Queue.byFee_perm _ _).mem_iff.mp (List.mem_of_mem_take hop))
  · intro op hop
    exact h.mintOps op ((Queue.byFee_perm _ _).mem_iff.mp (List.mem_of_mem_take hop))

/-- The registrations the round keeps. -/
def keptNames : NameSelection P := selectNameOps s d.tx d.nameOps

/-- The loop over mints, when it has come through the candidates `done`. -/
def mintsAfter (done : List (MintAssetOp P)) : MintSelection P :=
  selectMintOps e s d.tx (selectLaunchOps s d.launchOps).registry (keptNames s d).spentThisBlock done

/-- Where the filters are as strict as the chain: no registration or mint that gets through lists a
fee input twice, and a mint outside a collection that gets through has its payment on the chain or in
the block. -/
structure Strict : Prop where
  names : ∀ done op rest, d.nameOps = done ++ op :: rest →
    keepsNameOp s (selectNameOps s d.tx done) op = true → op.feePayment.spent.Nodup
  mints : ∀ done op rest, d.mintOps = done ++ op :: rest →
    (keepsMintOp e s d.tx (selectLaunchOps s d.launchOps).registry (mintsAfter e s d done) op).isSome =
      true →
    op.feePayment.spent.Nodup ∧
      (op.collectionId = none →
        s.conditionMet (assembleBlock e s d validator) op.requiredKernelExcess = true)

theorem builtFor_assembleBlock :
    BuiltFor e s (candidateKernelExcesses d.tx (mintsAfter e s d d.mintOps).mintOps
      (keptNames s d).nameOps) (assembleBlock e s d validator) := by
  refine ⟨rfl, rfl, ?_⟩
  intro c hc
  have hexcesses : (assembleBlock e s d validator).excesses =
      (d.tx.excesses ++ [Commitment.new 0 (0 - e.coinbaseBlinding (nextHeight s))])
        ++ ((keptNames s d).nameOps.flatMap (fun op => op.feePayment.excesses)
          ++ (mintsAfter e s d d.mintOps).mintOps.flatMap fun op => op.feePayment.excesses) := by
    have hbody : (assembleBlock e s d validator).body.kernels.map TxKernel.excess =
        d.tx.excesses ++ [Commitment.new 0 (0 - e.coinbaseBlinding (nextHeight s))] :=
      List.map_append
    simp only [Block.excesses, Block.kernels, Block.transactions, Block.payments, List.flatMap_cons,
      List.flatMap_append, List.flatMap_map, List.map_append, List.map_flatMap, hbody]
    rfl
  rw [hexcesses]
  simp only [candidateKernelExcesses, List.mem_append] at hc ⊢
  tauto

theorem BuiltFor.mono {excesses excesses' : List (Commitment P)} {b : Block P}
    (h : BuiltFor e s excesses b) (hsub : ∀ c ∈ excesses', c ∈ excesses) :
    BuiltFor e s excesses' b :=
  ⟨h.height, h.timestamp, fun c hc => h.excesses c (hsub c hc)⟩

variable {e s d validator}

/-- The loops over names and their transfers. -/
theorem names_pass (hd : d.Admitted) (hstrict : Strict e s d validator) :
    ∃ named names, (keptNames s d).nameOps.foldlM (s.checkNameOp (nextHeight s))
        ⟨d.tx.spent.toFinset, ∅, s.nameRegistry⟩ = some named ∧
      (selectTransferOps s (keptNames s d) d.transferOps).transferOps.foldlM s.checkTransferOp named =
        some names ∧
      names.spent = (keptNames s d).spentThisBlock := by
  have hgood : ∀ op ∈ (keptNames s d).nameOps,
      op.validateStandalone.isOk = true ∧ op.feePayment.spent.Nodup := by
    intro op hop
    obtain ⟨done, rest, hsplit, hkeep⟩ := (selects_nameOp.mem_kept_iff rfl).mp hop
    refine ⟨hd.nameOps op ?_, hstrict.names done op rest hsplit hkeep⟩
    rw [hsplit]
    exact List.mem_append_right _ List.mem_cons_self
  have hstart : SameNames s ⟨d.tx.spent.toFinset, s.nameRegistry, []⟩
      ⟨d.tx.spent.toFinset, ∅, s.nameRegistry⟩ :=
    ⟨rfl, rfl, rfl, by simp⟩
  obtain ⟨named, hnamed, hsame⟩ := selects_nameOp.foldlM_kept rfl hstart
    (fun _ _ _ h hkeep hop => h.step hkeep hop) d.nameOps hgood
  obtain ⟨names, hnames, -⟩ := selects_transferOp.foldlM_kept (R := SameTransfers)
    (G := fun _ => True)
    (i := ⟨((keptNames s d).nameOps.map RegisterNameOp.name).toFinset, (keptNames s d).registry,
      []⟩)
    rfl ⟨hsame.names, hsame.registry⟩ (fun _ _ _ h hkeep _ => h.step hkeep) d.transferOps
    fun _ _ => trivial
  refine ⟨named, names, hnamed, hnames, ?_⟩
  rw [(ChainState.transferred_of_foldlM hnames).2, hsame.spent]
  rfl

theorem launches_pass :
    ∃ launched, (selectLaunchOps s d.launchOps).launchCollectionOps.foldlM
        (s.checkLaunchOp (nextHeight s)) ⟨∅, s.collectionRegistry⟩ = some launched ∧
      SameLaunches s (selectLaunchOps s d.launchOps) launched :=
  selects_launchOp.foldlM_kept (R := SameLaunches s) (G := fun _ => True)
    (i := ⟨s.collectionRegistry, []⟩) rfl ⟨rfl, by simp, fun _ _ h => h⟩
    (fun _ _ _ h hkeep _ => h.step hkeep) d.launchOps fun _ _ => trivial

/-- The loops over mints and their transfers. -/
theorem assets_pass (hd : d.Admitted) (hstrict : Strict e s d validator) :
    let b := assembleBlock e s d validator
    let collections := (selectLaunchOps s d.launchOps).registry
    ∃ minted assets, b.mintOps.foldlM (s.checkMintOp b collections)
        ⟨(keptNames s d).spentThisBlock, ∅, s.assetRegistry, s.collectionMintCounts, []⟩ =
          some minted ∧
      b.transferAssetOps.foldlM (s.checkTransferAssetOp b) minted = some assets := by
  intro b collections
  have hb : BuiltFor e s _ b := builtFor_assembleBlock e s d validator
  have hbody : BuiltFor e s d.tx.excesses b := by
    refine hb.mono e s ?_
    intro c hc
    simp only [candidateKernelExcesses, List.mem_append]
    tauto
  have hgood : ∀ op ∈ (mintsAfter e s d d.mintOps).mintOps, MintGood s b op := by
    intro op hop
    obtain ⟨done, rest, hsplit, hkeep⟩ := (selects_mintOp.mem_kept_iff rfl).mp hop
    obtain ⟨hnd, hpaid⟩ := hstrict.mints done op rest hsplit hkeep
    refine ⟨hd.mintOps op ?_, hnd, hpaid⟩
    rw [hsplit]
    exact List.mem_append_right _ List.mem_cons_self
  have hstart : SameMints s
      ⟨(keptNames s d).spentThisBlock, s.assetRegistry, s.collectionMintCounts, []⟩
      ⟨(keptNames s d).spentThisBlock, ∅, s.assetRegistry, s.collectionMintCounts, []⟩ :=
    ⟨rfl, rfl, rfl, rfl, by simp⟩
  obtain ⟨minted, hminted, hsame⟩ := selects_mintOp.foldlM_kept rfl hstart
    (fun _ _ _ h hkeep hop => h.step hbody hkeep hop) d.mintOps hgood
  obtain ⟨launched, -, hlaunched⟩ := launches_pass (s := s) (d := d)
  obtain ⟨assets, hassets, -⟩ := selects_transferAssetOp.foldlM_kept (R := SameAssetTransfers)
    (G := fun _ => True)
    (i := ⟨((mintsAfter e s d d.mintOps).mintOps.map MintAssetOp.assetId).toFinset,
      (mintsAfter e s d d.mintOps).registry, []⟩)
    rfl ⟨hsame.assets, hsame.registry⟩ (fun _ _ _ h hkeep _ => h.step hb hlaunched.kept hkeep)
    d.transferAssetOps fun _ _ => trivial
  exact ⟨minted, assets, hminted, hassets⟩

theorem validators_pass :
    ∃ validators, (selectValidatorOps s d.validatorOps).validatorOps.foldlM
      (fun vs op => tryRegisterValidator vs s.utxos op) s.activeValidators = some validators := by
  obtain ⟨validators, hvalidators, -⟩ := selects_validatorOp.foldlM_kept
    (R := fun acc vs => vs = acc.validators) (G := fun _ => True)
    (i := ⟨s.activeValidators, []⟩) rfl rfl
    (fun _ _ _ h hkeep _ => validators_step h hkeep) d.validatorOps fun _ _ => trivial
  exact ⟨validators, hvalidators⟩

-- what the chain's loop over mints has seen of each payment condition
theorem conditionMet_of_foldlM {b : Block P} {collections : KeyedMap String (CollectionRecord P)}
    {ops : List (MintAssetOp P)} {init acc : ChainState.MintCheck P}
    (h : ops.foldlM (s.checkMintOp b collections) init = some acc) :
    ∀ op ∈ ops, s.conditionMet b op.requiredKernelExcess = true := by
  refine foldlM_induct (motive := fun ops _ =>
    ∀ op ∈ ops, s.conditionMet b op.requiredKernelExcess = true) (by simp) ?_ h
  intro ops op acc acc' ih hop
  simp only [ChainState.checkMintOp, Option.bind_eq_bind, Option.bind_eq_some_iff, ensure_eq_some,
    exists_const] at hop
  obtain ⟨-, -, -, -, -, -, hpaid, -⟩ := hop
  rw [List.forall_mem_append]
  exact ⟨ih, by simpa using hpaid⟩

/-- **The selected operations pass every check of the chain exactly where the filters are strict
enough**: whatever else is pending, whatever the body and the state. -/
theorem checkOps_assembleBlock_iff (hd : d.Admitted) :
    (s.checkOps (assembleBlock e s d validator)).isSome = true ↔ Strict e s d validator := by
  constructor
  · intro h
    obtain ⟨c, hc⟩ := Option.isSome_iff_exists.mp h
    simp only [ChainState.checkOps, Option.bind_eq_bind, Option.bind_eq_some_iff, Option.pure_def,
      Option.some.injEq] at hc
    obtain ⟨named, hnamed, names, -, launched, -, minted, hminted, -⟩ := hc
    have hN := (ChainState.namesChecked_of_foldlM hnamed).claimed.nodup
    have hM := (ChainState.mintsChecked_of_foldlM hminted).claimed.nodup
    rw [List.nodup_flatMap] at hN hM
    refine ⟨?_, ?_⟩
    · intro done op rest hsplit hkeep
      exact hN.1 op ((selects_nameOp.mem_kept_iff rfl).mpr ⟨done, rest, hsplit, hkeep⟩)
    · intro done op rest hsplit hkeep
      have hmem : op ∈ (mintsAfter e s d d.mintOps).mintOps :=
        (selects_mintOp.mem_kept_iff rfl).mpr ⟨done, rest, hsplit, hkeep⟩
      exact ⟨hM.1 op hmem, fun _ => conditionMet_of_foldlM hminted op hmem⟩
  · intro hstrict
    obtain ⟨named, names, hnamed, hnames, hspent⟩ := names_pass hd hstrict
    obtain ⟨launched, hlaunched, hsame⟩ := launches_pass (s := s) (d := d)
    obtain ⟨minted, assets, hminted, hassets⟩ := assets_pass hd hstrict
    obtain ⟨validators, hvalidators⟩ := validators_pass (s := s) (d := d)
    rw [Option.isSome_iff_exists]
    simp only [ChainState.checkOps, Option.bind_eq_bind, Option.bind_eq_some_iff]
    rw [← hspent, ← hsame.registry] at hminted
    exact ⟨_, named, hnamed, names, hnames, launched, hlaunched, minted, hminted, assets, hassets,
      validators, hvalidators, rfl⟩

end Block

end Proposer

namespace Devnet

open Proposer

-- the genesis output, spent twice by one payment
def doublePayment : Transaction crypto :=
  let value := genesisTotalMinted - 1_000_000
  let coin : Input crypto := ⟨Commitment.new (P := crypto) value (7 : BitVec 256)⟩
  ⟨[coin, coin], [output (value + value - 5) 9], [kernel (7 + 7 - 9) 5]⟩

-- a mint outside any collection, against a payment that nobody made
def unpaidMint : MintAssetOp crypto :=
  let paid : Commitment crypto := Commitment.new (P := crypto) 0 (99 : BitVec 256)
  { mintOp "token" 3 (payment (genesisTotalMinted - 1_000_000) 7 8 5) with
    requiredKernelExcess := some paid
    signature := Signature.sign (P := crypto)
      (MintAssetOp.signingMessage "token" [] none none (some paid)) (3 : BitVec 256) (5 : BitVec 256) }

/-- What a round on top of genesis drains after the calls. -/
def drained (calls : List (Mempool.PoolCall crypto)) : Drained crypto :=
  (drain (Mempool.run serializedSize calls)).1

theorem admitted_drained (calls : List (Mempool.PoolCall crypto)) : (drained calls).Admitted :=
  admitted_drain (Mempool.admitted_run serializedSize calls)

def genesisValidator : Validator crypto := ⟨genesisDefault crypto, genesisStake, Signature.zero⟩

/-- One registration with a proper payment: the filters are as strict as the chain. -/
theorem strict_nameOp :
    Strict env (ChainState.deliver [genesis])
      (drained [.addNameOp (nameOp "alice" 3 (payment (genesisTotalMinted - 1_000_000) 7 8 5))])
      genesisValidator :=
  (checkOps_assembleBlock_iff (admitted_drained _)).mp (by decide +kernel)

/-- The two ways through: a payment that spends its input twice, and a plain mint whose payment is
missing. Both are kept, and the chain refuses the block. -/
theorem filters_let_through :
    ((ChainState.deliver [genesis]).checkOps (assembleBlock env (ChainState.deliver [genesis])
      (drained [.addNameOp (nameOp "alice" 3 doublePayment)]) genesisValidator)).isSome = false ∧
    ((ChainState.deliver [genesis]).checkOps (assembleBlock env (ChainState.deliver [genesis])
      (drained [.addMintOp unpaidMint]) genesisValidator)).isSome = false := by
  decide +kernel

end Devnet

end Haze
