import Haze.Chain.Accept

/-!
# What an accepted block writes

`Accepted` says which checks an applied block has passed. This module says what the checks leave in
the candidate registries, and that the transition makes the registries those candidates: every
registration, mint, launch and transfer of the block has its record there, under a signature that
verified, and no other entry has changed.
-/

namespace Haze

open Checked

variable {P : Crypto}

/-! ## The records

The record that each operation leaves. A transfer keeps the height of the registration, the metadata and the
collection. -/

def RegisterNameOp.record (op : RegisterNameOp P) (height : UInt64) : NameRecord P :=
  ⟨op.name, op.ownerPubkey, op.resolvesTo, height⟩

def TransferNameOp.record (op : TransferNameOp P) (current : NameRecord P) : NameRecord P :=
  ⟨op.name, op.newOwnerPubkey, op.newResolvesTo, current.registeredAtBlock⟩

def MintAssetOp.record (op : MintAssetOp P) (height : UInt64) : AssetRecord P :=
  ⟨op.assetId, op.ownerPubkey, op.metadata, height, op.collectionId⟩

def TransferAssetOp.record (op : TransferAssetOp P) (current : AssetRecord P) : AssetRecord P :=
  ⟨op.assetId, op.newOwnerPubkey, current.metadata, current.mintedAtBlock, current.collectionId⟩

/-! ## The signatures

The signatures that the checks of an operation include. What is signed and whose key is asked for differ
from operation to operation: a new name and a new asset are signed by their new owner, a transfer by the
owner before it. -/

def RegisterNameOp.signed (op : RegisterNameOp P) : Bool :=
  op.signature.verify (signingMessage op.name) op.ownerPubkey

def MintAssetOp.signed (op : MintAssetOp P) : Bool :=
  op.signature.verify (signingMessage op.assetId op.metadata op.collectionId op.phaseIndex
    op.requiredKernelExcess) op.ownerPubkey

/-- The transfer is authorized by `owner`, over its own fields. -/
def TransferNameOp.signedBy (op : TransferNameOp P) (owner : Commitment P) : Bool :=
  op.signature.verify (signingMessage op.name op.newOwnerPubkey op.newResolvesTo) owner

@[inherit_doc TransferNameOp.signedBy]
def TransferAssetOp.signedBy (op : TransferAssetOp P) (owner : Commitment P) : Bool :=
  op.signature.verify (signingMessage op.assetId op.newOwnerPubkey op.requiredKernelExcess
    op.requiredRoyaltyKernelExcess) owner

-- a check that did not throw
theorem not_of_isOk {ε : Type} {c : Prop} [Decidable c] {e : ε} {k : Unit → Except ε Unit}
    {y : Except ε Unit} (h : (if c then (throw e >>= k) else y).isOk = true) : ¬ c := by
  intro hc
  rw [if_pos hc] at h
  cases h

theorem RegisterNameOp.signed_of_isOk {op : RegisterNameOp P}
    (h : op.validateStandalone.isOk = true) : op.signed = true := by
  have hrest := isOk_of_seq (x := validateName op.name) h
  simpa [signed] using not_of_isOk hrest

theorem MintAssetOp.signed_of_isOk {op : MintAssetOp P} (h : op.validateStandalone.isOk = true) :
    op.signed = true := by
  have hrest := isOk_of_seq (x := validateAssetId op.assetId) h
  iterate 3 replace hrest := isOk_of_unless hrest
  simpa [signed] using not_of_isOk hrest

/-- The collection and the phase of a mint are given together. -/
theorem MintAssetOp.fields_of_isOk {op : MintAssetOp P} (h : op.validateStandalone.isOk = true) :
    op.collectionId.isSome = op.phaseIndex.isSome := by
  have hrest := isOk_of_seq (x := validateAssetId op.assetId) h
  replace hrest := isOk_of_unless hrest
  simpa using not_of_isOk hrest

/-- A mint that names a collection names its phase too, so it is counted. -/
theorem MintAssetOp.countKey_of_collection {op : MintAssetOp P} {id : String}
    (h : op.validateStandalone.isOk = true) (hid : op.collectionId = some id) :
    ∃ key, op.countKey = some key ∧ key.1 = id := by
  have hfields := op.fields_of_isOk h
  rw [hid] at hfields
  obtain ⟨phaseIndex, hp⟩ := Option.isSome_iff_exists.mp hfields.symm
  refine ⟨(id, phaseIndex, P.compress op.ownerPubkey.asPoint), ?_, rfl⟩
  simp only [countKey, hid, hp]

namespace ChainState

variable {s : ChainState P} {b : Block P}

/-! ## Names

Names registered first, transferred second; each name is written at most once in a block, so the record
found after the loop is the one its operation wrote. -/

/-- What the operations on names processed so far have written. -/
structure NamesWritten (s : ChainState P) (height : UInt64) (regs : List (RegisterNameOp P))
    (transfers : List (TransferNameOp P)) (seen : Finset String)
    (registry : KeyedMap String (NameRecord P)) : Prop where
  written : KeyedMap.Written s.nameRegistry
    (regs.map RegisterNameOp.name ++ transfers.map TransferNameOp.name) seen registry
  registered : ∀ op ∈ regs, op.signed = true ∧ registry.lookup op.name = some (op.record height)
  transferred : ∀ op ∈ transfers, ∃ current, s.nameRegistry.lookup op.name = some current ∧
    op.signedBy current.ownerPubkey = true ∧ registry.lookup op.name = some (op.record current)

theorem namesWritten_of_foldlM {height : UInt64} {spent : Finset (Commitment P)}
    {ops : List (RegisterNameOp P)} {acc : NameCheck P}
    (h : ops.foldlM (s.checkNameOp height) ⟨spent, ∅, s.nameRegistry⟩ = some acc) :
    NamesWritten s height ops [] acc.names acc.registry := by
  refine foldlM_induct (motive := fun ops acc =>
    NamesWritten s height ops [] acc.names acc.registry) ?_ ?_ h
  · exact ⟨KeyedMap.Written.nil _, by simp, by simp⟩
  · intro ops op acc acc' ih hop
    simp only [checkNameOp, Option.bind_eq_bind, Option.bind_eq_some_iff, ensure_eq_some,
      exists_const, Option.pure_def, Option.some.injEq, Bool.and_eq_true, decide_eq_true_eq] at hop
    obtain ⟨hval, ⟨-, hseen⟩, spent', -, rfl⟩ := hop
    have hwritten := ih.written
    rw [List.map_nil, List.append_nil] at hwritten
    refine ⟨?_, ?_, by simp⟩
    -- `hseen` is the check against the names seen so far, so no earlier record is overwritten
    · rw [List.map_append, List.map_nil, List.append_nil]
      exact hwritten.snoc hseen _
    · rw [List.forall_mem_append]
      refine ⟨?_, ?_⟩
      · intro op' hop'
        obtain ⟨hsig, hlookup⟩ := ih.registered op' hop'
        exact ⟨hsig, (hwritten.lookup_insert hseen (List.mem_map_of_mem hop')).trans hlookup⟩
      · rw [List.forall_mem_singleton]
        exact ⟨op.signed_of_isOk hval, Finmap.lookup_insert _⟩

theorem NamesWritten.transfers {height : UInt64} {regs : List (RegisterNameOp P)}
    {ops : List (TransferNameOp P)} {init acc : NameCheck P}
    (hinit : NamesWritten s height regs [] init.names init.registry)
    (h : ops.foldlM s.checkTransferOp init = some acc) :
    NamesWritten s height regs ops acc.names acc.registry := by
  refine foldlM_induct (motive := fun ops acc =>
    NamesWritten s height regs ops acc.names acc.registry) hinit ?_ h
  intro ops op acc acc' ih hop
  simp only [checkTransferOp, Option.bind_eq_bind, Option.bind_eq_some_iff, ensure_eq_some,
    exists_const, Option.pure_def, Option.some.injEq, decide_eq_true_eq] at hop
  obtain ⟨hseen, current, hcur, hsig, rfl⟩ := hop
  refine ⟨?_, ?_, ?_⟩
  · rw [List.map_append, ← List.append_assoc]
    -- a transfer may not name a name of the same block either
    exact ih.written.snoc hseen _
  · intro op' hop'
    obtain ⟨hsig', hlookup⟩ := ih.registered op' hop'
    have hmem := List.mem_append_left (ops.map TransferNameOp.name)
      (List.mem_map_of_mem (f := RegisterNameOp.name) hop')
    exact ⟨hsig', (ih.written.lookup_insert hseen hmem).trans hlookup⟩
  · rw [List.forall_mem_append]
    refine ⟨?_, ?_⟩
    · intro op' hop'
      obtain ⟨current', hcur', hsig', hlookup⟩ := ih.transferred op' hop'
      have hmem := List.mem_append_right (regs.map RegisterNameOp.name)
        (List.mem_map_of_mem (f := TransferNameOp.name) hop')
      exact ⟨current', hcur', hsig', (ih.written.lookup_insert hseen hmem).trans hlookup⟩
    · rw [List.forall_mem_singleton]
      exact ⟨current, hcur, hsig, Finmap.lookup_insert _⟩

/-- A new name is one of the registrations. -/
theorem NamesWritten.new {height : UInt64} {regs : List (RegisterNameOp P)}
    {transfers : List (TransferNameOp P)} {seen : Finset String}
    {registry : KeyedMap String (NameRecord P)} {name : String}
    (h : NamesWritten s height regs transfers seen registry)
    {r' : NameRecord P} (hr' : registry.lookup name = some r') (hname : name ∉ s.nameRegistry) :
    ∃ op ∈ regs, op.name = name ∧ r'.ownerPubkey = op.ownerPubkey ∧ op.signed = true := by
  have hmem : name ∈ regs.map RegisterNameOp.name := by
    apply h.written.mem_new _ hname (Finmap.mem_of_lookup_eq_some hr')
    intro op hop
    obtain ⟨current, hcur, -⟩ := h.transferred op hop
    exact Finmap.mem_of_lookup_eq_some hcur
  obtain ⟨op, hop, rfl⟩ := List.mem_map.mp hmem
  obtain ⟨hsig, hlookup⟩ := h.registered op hop
  obtain rfl : op.record height = r' := Option.some.inj (hlookup.symm.trans hr')
  exact ⟨op, hop, rfl, rfl, hsig⟩

/-! ## Collections

A launch writes one record and collections are never rewritten. -/

theorem collectionsWritten_of_foldlM {height : UInt64} {ops : List (LaunchCollectionOp P)}
    {acc : LaunchCheck P}
    (h : ops.foldlM (s.checkLaunchOp height) ⟨∅, s.collectionRegistry⟩ = some acc) :
    KeyedMap.Written s.collectionRegistry (ops.map LaunchCollectionOp.collectionId) acc.collections
      acc.registry := by
  refine foldlM_induct (motive := fun ops acc => KeyedMap.Written s.collectionRegistry
    (ops.map LaunchCollectionOp.collectionId) acc.collections acc.registry)
    (KeyedMap.Written.nil _) ?_ h
  intro ops op acc acc' ih hop
  simp only [checkLaunchOp, Option.bind_eq_bind, Option.bind_eq_some_iff, ensure_eq_some, exists_const,
    Option.pure_def, Option.some.injEq, Bool.and_eq_true, decide_eq_true_eq] at hop
  obtain ⟨-, ⟨-, hseen⟩, rfl⟩ := hop
  rw [List.map_append]
  exact ih.snoc hseen _

/-! ## Assets

Assets follow the same order, mints first. A mint into a collection also has to find the collection among
those launched up to and including this block. -/

/-- What the operations on assets processed so far have written. -/
structure AssetsWritten (s : ChainState P) (b : Block P)
    (collections : KeyedMap String (CollectionRecord P)) (mints : List (MintAssetOp P))
    (transfers : List (TransferAssetOp P)) (seen : Finset String)
    (registry : KeyedMap String (AssetRecord P)) : Prop where
  written : KeyedMap.Written s.assetRegistry
    (mints.map MintAssetOp.assetId ++ transfers.map TransferAssetOp.assetId) seen registry
  minted : ∀ op ∈ mints, op.signed = true ∧
    registry.lookup op.assetId = some (op.record b.height) ∧
      ∀ id, op.collectionId = some id → id ∈ collections
  transferred : ∀ op ∈ transfers, ∃ current, s.assetRegistry.lookup op.assetId = some current ∧
    op.signedBy current.ownerPubkey = true ∧ s.conditionMet b op.requiredKernelExcess = true ∧
      s.royaltyMet b current op = true ∧ registry.lookup op.assetId = some (op.record current)

/-- The rules of a mint that names a collection: the collection and the phase exist, and the count is
below the limit of the phase. -/
theorem checkMintCount_collection {collections : KeyedMap String (CollectionRecord P)}
    {acc : MintCheck P} {op : MintAssetOp P} {r : KeyedMap MintKey UInt32 × List MintKey} {key : MintKey}
    (h : checkMintCount b collections acc op = some r) (hkey : op.countKey = some key) :
    op.collectionId = some key.1 ∧ ∃ collection phase,
      collections.lookup key.1 = some collection ∧ collection.phases[key.2.1.toNat]? = some phase ∧
        (acc.counts.lookup key).getD 0 < phase.perWalletLimit := by
  unfold checkMintCount at h
  split at h
  next collectionId phaseIndex hc hp =>
    simp only [checkCollectionMint, Option.bind_eq_bind, Option.bind_eq_some_iff, ensure_eq_some,
      exists_const, Option.pure_def, Option.some.injEq, decide_eq_true_eq] at h
    obtain ⟨⟨collection, hcol, phase, hphase, -, -, excess, -, sig, -, -, hlimit⟩, -⟩ := h
    obtain rfl : (collectionId, phaseIndex, P.compress op.ownerPubkey.asPoint) = key := by
      simpa [MintAssetOp.countKey, hc, hp] using hkey
    exact ⟨hc, collection, phase, hcol, hphase, hlimit⟩
  next hnone =>
    unfold MintAssetOp.countKey at hkey
    split at hkey
    next c p hc hp => exact absurd hp (hnone c p hc)
    next => cases hkey

theorem assetsWritten_of_foldlM {collections : KeyedMap String (CollectionRecord P)}
    {spent : Finset (Commitment P)} {ops : List (MintAssetOp P)} {acc : MintCheck P}
    (h : ops.foldlM (s.checkMintOp b collections)
      ⟨spent, ∅, s.assetRegistry, s.collectionMintCounts, []⟩ = some acc) :
    AssetsWritten s b collections ops [] acc.assets acc.registry := by
  refine foldlM_induct (motive := fun ops acc =>
    AssetsWritten s b collections ops [] acc.assets acc.registry) ?_ ?_ h
  · exact ⟨KeyedMap.Written.nil _, by simp, by simp⟩
  · intro ops op acc acc' ih hop
    simp only [checkMintOp, Option.bind_eq_bind, Option.bind_eq_some_iff, ensure_eq_some,
      exists_const, Option.pure_def, Option.some.injEq, Bool.and_eq_true, decide_eq_true_eq] at hop
    obtain ⟨hval, ⟨-, hseen⟩, spent', -, counted, hcount, -, rfl⟩ := hop
    have hwritten := ih.written
    rw [List.map_nil, List.append_nil] at hwritten
    refine ⟨?_, ?_, by simp⟩
    · rw [List.map_append, List.map_nil, List.append_nil]
      exact hwritten.snoc hseen _
    · rw [List.forall_mem_append]
      refine ⟨?_, ?_⟩
      · intro op' hop'
        obtain ⟨hsig, hlookup, hcol⟩ := ih.minted op' hop'
        exact ⟨hsig, (hwritten.lookup_insert hseen (List.mem_map_of_mem hop')).trans hlookup, hcol⟩
      · rw [List.forall_mem_singleton]
        -- a key to count with exists only when the asset names a collection, and the count check found
        -- that collection
        refine ⟨op.signed_of_isOk hval, Finmap.lookup_insert _, ?_⟩
        intro id hid
        obtain ⟨key, hkey, rfl⟩ := op.countKey_of_collection hval hid
        obtain ⟨-, collection, phase, hcol, -, -⟩ := checkMintCount_collection hcount hkey
        exact Finmap.mem_of_lookup_eq_some hcol

theorem AssetsWritten.transfers {collections : KeyedMap String (CollectionRecord P)}
    {mints : List (MintAssetOp P)} {ops : List (TransferAssetOp P)} {init acc : MintCheck P}
    (hinit : AssetsWritten s b collections mints [] init.assets init.registry)
    (h : ops.foldlM (s.checkTransferAssetOp b) init = some acc) :
    AssetsWritten s b collections mints ops acc.assets acc.registry := by
  refine foldlM_induct (motive := fun ops acc =>
    AssetsWritten s b collections mints ops acc.assets acc.registry) hinit ?_ h
  intro ops op acc acc' ih hop
  simp only [checkTransferAssetOp, Option.bind_eq_bind, Option.bind_eq_some_iff, ensure_eq_some,
    exists_const, Option.pure_def, Option.some.injEq, decide_eq_true_eq] at hop
  obtain ⟨hseen, current, hcur, hsig, hcond, hroyalty, rfl⟩ := hop
  refine ⟨?_, ?_, ?_⟩
  · rw [List.map_append, ← List.append_assoc]
    exact ih.written.snoc hseen _
  · intro op' hop'
    obtain ⟨hsig', hlookup, hcol⟩ := ih.minted op' hop'
    have hmem := List.mem_append_left (ops.map TransferAssetOp.assetId)
      (List.mem_map_of_mem (f := MintAssetOp.assetId) hop')
    exact ⟨hsig', (ih.written.lookup_insert hseen hmem).trans hlookup, hcol⟩
  · rw [List.forall_mem_append]
    refine ⟨?_, ?_⟩
    · intro op' hop'
      obtain ⟨current', hcur', hsig', hcond', hroyalty', hlookup⟩ := ih.transferred op' hop'
      have hmem := List.mem_append_right (mints.map MintAssetOp.assetId)
        (List.mem_map_of_mem (f := TransferAssetOp.assetId) hop')
      exact ⟨current', hcur', hsig', hcond', hroyalty',
        (ih.written.lookup_insert hseen hmem).trans hlookup⟩
    · rw [List.forall_mem_singleton]
      exact ⟨current, hcur, hsig, hcond, hroyalty, Finmap.lookup_insert _⟩

/-- A new asset is one of the mints. -/
theorem AssetsWritten.new {collections : KeyedMap String (CollectionRecord P)}
    {mints : List (MintAssetOp P)} {transfers : List (TransferAssetOp P)} {seen : Finset String}
    {registry : KeyedMap String (AssetRecord P)} {assetId : String}
    (h : AssetsWritten s b collections mints transfers seen registry)
    {r' : AssetRecord P} (hr' : registry.lookup assetId = some r')
    (hasset : assetId ∉ s.assetRegistry) :
    ∃ op ∈ mints, op.assetId = assetId ∧ r' = op.record b.height ∧ op.signed = true := by
  have hmem : assetId ∈ mints.map MintAssetOp.assetId := by
    apply h.written.mem_new _ hasset (Finmap.mem_of_lookup_eq_some hr')
    intro op hop
    obtain ⟨current, hcur, -⟩ := h.transferred op hop
    exact Finmap.mem_of_lookup_eq_some hcur
  obtain ⟨op, hop, rfl⟩ := List.mem_map.mp hmem
  obtain ⟨hsig, hlookup, -⟩ := h.minted op hop
  exact ⟨op, hop, rfl, Option.some.inj (hr'.symm.trans hlookup), hsig⟩

/-! ## The whole block

The three folds together, as the candidate that the checks return. -/

/-- What an accepted block writes. -/
structure Recorded (s : ChainState P) (b : Block P) (c : Candidate P) : Prop where
  names : ∃ seen, NamesWritten s b.height b.nameOps b.transferOps seen c.registry
  collections : ∃ seen, KeyedMap.Written s.collectionRegistry
    (b.launchCollectionOps.map LaunchCollectionOp.collectionId) seen c.collections
  assets : ∃ seen, AssetsWritten s b c.collections b.mintOps b.transferAssetOps seen c.assets

theorem recorded_of_checkBlock {c : Candidate P} (h : s.checkBlock b = some c) :
    Recorded s b c := by
  simp only [checkBlock, Option.bind_eq_bind, Option.bind_eq_some_iff, ensure_eq_some, exists_const,
    Option.pure_def, Option.some.injEq] at h
  obtain ⟨-, _, -, -, -, -, -, named, hnamed, names, hnames, -, launched, hlaunched, -, minted,
    hminted, assets, hassets, -, validators, -, rfl⟩ := h
  exact ⟨⟨names.names, (namesWritten_of_foldlM hnamed).transfers hnames⟩,
    ⟨launched.collections, collectionsWritten_of_foldlM hlaunched⟩,
    ⟨assets.assets, (assetsWritten_of_foldlM hminted).transfers hassets⟩⟩

variable {c : Candidate P}

/-- The transition leaves the candidate registries. -/
theorem Recorded.nameRegistry_eq (h : Recorded s b c) :
    (s.commitBlock b c).1.nameRegistry = c.registry := by
  obtain ⟨seen, hn⟩ := h.names
  apply KeyedMap.edit_eq hn.written
  intro k hk
  obtain ⟨op, hop, rfl⟩ := List.mem_map.mp hk
  obtain ⟨current, hcur, -⟩ := hn.transferred op hop
  exact Finmap.mem_of_lookup_eq_some hcur

theorem Recorded.assetRegistry_eq (h : Recorded s b c) :
    (s.commitBlock b c).1.assetRegistry = c.assets := by
  obtain ⟨seen, ha⟩ := h.assets
  apply KeyedMap.edit_eq ha.written
  intro k hk
  obtain ⟨op, hop, rfl⟩ := List.mem_map.mp hk
  obtain ⟨current, hcur, -⟩ := ha.transferred op hop
  exact Finmap.mem_of_lookup_eq_some hcur

theorem Recorded.collectionRegistry_eq (h : Recorded s b c) :
    (s.commitBlock b c).1.collectionRegistry = c.collections := by
  obtain ⟨seen, hc⟩ := h.collections
  exact KeyedMap.insertFrom_eq hc.present hc.frame

/-- A kernel that a block demands is on the chain after it. -/
theorem mem_kernelExcesses_of_satisfied {e : Commitment P} (h : s.satisfied b e = true) :
    e ∈ (s.commitBlock b c).1.kernelExcesses := by
  simp only [satisfied, Block.blockKernelExcesses, Bool.or_eq_true, decide_eq_true_eq,
    List.mem_toFinset] at h
  exact Coins.mem_create.mpr h.symm

end ChainState

end Haze
