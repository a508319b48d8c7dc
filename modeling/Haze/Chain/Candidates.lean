import Haze.Chain.Written

/-!
# The candidates of a block

The checks of a block fold its operations into candidate registries, and the transition copies these.
What the folds arrive at is a function of the state and the operations alone: `namesAfter`,
`collectionsAfter`, `assetsAfter` and `countsAfter`.
-/

namespace Haze

open Checked

variable {P : Crypto}

/-- The record of a launch. -/
def LaunchCollectionOp.record (op : LaunchCollectionOp P) (height : UInt64) : CollectionRecord P :=
  ⟨op.collectionId, op.creatorPubkey, op.name, op.symbol, op.metadata, op.phases, height,
    op.royaltyBps⟩

/-! ## What the operations lead to

The registries after the operations of a block, as folds over the operations alone. No check is left in
them. -/

namespace ChainState

variable (s : ChainState P)

def registerNames (height : UInt64) (ops : List (RegisterNameOp P)) :
    KeyedMap String (NameRecord P) :=
  ops.foldl (fun m op => m.insert op.name (op.record height)) s.nameRegistry

-- a transfer keeps the height of the record that the state has, not that of the snapshot
def transferName (m : KeyedMap String (NameRecord P)) (op : TransferNameOp P) :
    KeyedMap String (NameRecord P) :=
  match s.nameRegistry.lookup op.name with
  | some current => m.insert op.name (op.record current)
  | none => m

def namesAfter (b : Block P) : KeyedMap String (NameRecord P) :=
  b.transferOps.foldl s.transferName (s.registerNames b.height b.nameOps)

def collectionsAfter (b : Block P) : KeyedMap String (CollectionRecord P) :=
  b.launchCollectionOps.foldl (fun m op => m.insert op.collectionId (op.record b.height))
    s.collectionRegistry

def mintAssets (height : UInt64) (ops : List (MintAssetOp P)) : KeyedMap String (AssetRecord P) :=
  ops.foldl (fun m op => m.insert op.assetId (op.record height)) s.assetRegistry

def transferAsset (m : KeyedMap String (AssetRecord P)) (op : TransferAssetOp P) :
    KeyedMap String (AssetRecord P) :=
  match s.assetRegistry.lookup op.assetId with
  | some current => m.insert op.assetId (op.record current)
  | none => m

def assetsAfter (b : Block P) : KeyedMap String (AssetRecord P) :=
  b.transferAssetOps.foldl s.transferAsset (s.mintAssets b.height b.mintOps)

def countsAfter (b : Block P) : KeyedMap MintKey UInt32 :=
  (b.mintOps.filterMap MintAssetOp.countKey).foldl Counter.bump s.collectionMintCounts

/-! ## The chain's candidates

What the checks compute on the way, and what the folds compute, are the same registries. -/

variable {s} {b : Block P}

theorem registry_checkNameOp {height : UInt64} {spent : Finset (Commitment P)}
    {ops : List (RegisterNameOp P)} {acc : NameCheck P}
    (h : ops.foldlM (s.checkNameOp height) ⟨spent, ∅, s.nameRegistry⟩ = some acc) :
    acc.registry = s.registerNames height ops := by
  refine foldlM_induct (motive := fun ops acc => acc.registry = s.registerNames height ops) rfl ?_ h
  intro ops op acc acc' ih hop
  simp only [checkNameOp, Option.bind_eq_bind, Option.bind_eq_some_iff, Option.pure_def,
    Option.some.injEq] at hop
  obtain ⟨-, -, -, -, spent', -, rfl⟩ := hop
  rw [registerNames, List.foldl_append, ih]
  rfl

theorem registry_checkTransferOp {ops : List (TransferNameOp P)} {init acc : NameCheck P}
    (h : ops.foldlM s.checkTransferOp init = some acc) :
    acc.registry = ops.foldl s.transferName init.registry := by
  refine foldlM_induct (motive := fun ops acc =>
    acc.registry = ops.foldl s.transferName init.registry) rfl ?_ h
  intro ops op acc acc' ih hop
  simp only [checkTransferOp, Option.bind_eq_bind, Option.bind_eq_some_iff, Option.pure_def,
    Option.some.injEq] at hop
  obtain ⟨-, -, current, hcur, -, -, rfl⟩ := hop
  rw [List.foldl_append, ← ih]
  simp only [List.foldl_cons, List.foldl_nil, transferName, hcur]
  rfl

theorem registry_checkLaunchOp {ops : List (LaunchCollectionOp P)} {acc : LaunchCheck P}
    {height : UInt64}
    (h : ops.foldlM (s.checkLaunchOp height) ⟨∅, s.collectionRegistry⟩ = some acc) :
    acc.registry = ops.foldl (fun m op => m.insert op.collectionId (op.record height))
      s.collectionRegistry := by
  refine foldlM_induct (motive := fun ops acc => acc.registry =
    ops.foldl (fun m op => m.insert op.collectionId (op.record height)) s.collectionRegistry)
    rfl ?_ h
  intro ops op acc acc' ih hop
  simp only [checkLaunchOp, Option.bind_eq_bind, Option.bind_eq_some_iff, Option.pure_def,
    Option.some.injEq] at hop
  obtain ⟨-, -, -, -, rfl⟩ := hop
  rw [List.foldl_append, ← ih]
  rfl

theorem registry_checkMintOp {collections : KeyedMap String (CollectionRecord P)}
    {spent : Finset (Commitment P)} {ops : List (MintAssetOp P)} {acc : MintCheck P}
    (h : ops.foldlM (s.checkMintOp b collections)
      ⟨spent, ∅, s.assetRegistry, s.collectionMintCounts, []⟩ = some acc) :
    acc.registry = s.mintAssets b.height ops := by
  refine foldlM_induct (motive := fun ops acc => acc.registry = s.mintAssets b.height ops) rfl ?_ h
  intro ops op acc acc' ih hop
  simp only [checkMintOp, Option.bind_eq_bind, Option.bind_eq_some_iff, Option.pure_def,
    Option.some.injEq] at hop
  obtain ⟨-, -, -, -, spent', -, counted, -, -, -, rfl⟩ := hop
  rw [mintAssets, List.foldl_append, ih]
  rfl

theorem registry_checkTransferAssetOp {ops : List (TransferAssetOp P)} {init acc : MintCheck P}
    (h : ops.foldlM (s.checkTransferAssetOp b) init = some acc) :
    acc.registry = ops.foldl s.transferAsset init.registry := by
  refine foldlM_induct (motive := fun ops acc =>
    acc.registry = ops.foldl s.transferAsset init.registry) rfl ?_ h
  intro ops op acc acc' ih hop
  simp only [checkTransferAssetOp, Option.bind_eq_bind, Option.bind_eq_some_iff, Option.pure_def,
    Option.some.injEq] at hop
  obtain ⟨-, -, current, hcur, -, -, -, -, -, -, rfl⟩ := hop
  rw [List.foldl_append, ← ih]
  simp only [List.foldl_cons, List.foldl_nil, transferAsset, hcur]
  rfl

theorem counts_checkMintOp {collections : KeyedMap String (CollectionRecord P)}
    {spent : Finset (Commitment P)} {ops : List (MintAssetOp P)} {acc : MintCheck P}
    (h : ops.foldlM (s.checkMintOp b collections)
      ⟨spent, ∅, s.assetRegistry, s.collectionMintCounts, []⟩ = some acc) :
    acc.counts = (ops.filterMap MintAssetOp.countKey).foldl Counter.bump s.collectionMintCounts := by
  refine foldlM_induct (motive := fun ops acc => acc.counts =
    (ops.filterMap MintAssetOp.countKey).foldl Counter.bump s.collectionMintCounts) rfl ?_ h
  intro ops op acc acc' ih hop
  simp only [checkMintOp, Option.bind_eq_bind, Option.bind_eq_some_iff, Option.pure_def,
    Option.some.injEq] at hop
  obtain ⟨-, -, -, -, spent', -, counted, hcount, -, -, rfl⟩ := hop
  rw [List.filterMap_append, List.foldl_append, ← ih]
  rcases checkMintCount_cases hcount with ⟨hkey, rfl⟩ | ⟨key, limit, hkey, -, rfl⟩
  · simp [hkey]
  · simp [hkey]

/-- What the checks arrive at. -/
structure Folded (s : ChainState P) (b : Block P) (c : Candidate P) : Prop where
  registry : c.registry = s.namesAfter b
  collections : c.collections = s.collectionsAfter b
  assets : c.assets = s.assetsAfter b
  counts : c.counts = s.countsAfter b

theorem folded_of_checkBlock {c : Candidate P} (h : s.checkBlock b = some c) : Folded s b c := by
  simp only [checkBlock, Option.bind_eq_bind, Option.bind_eq_some_iff, ensure_eq_some, exists_const,
    Option.pure_def, Option.some.injEq] at h
  obtain ⟨-, _, -, -, -, -, -, named, hnamed, names, hnames, -, launched, hlaunched, -, minted,
    hminted, assets, hassets, -, validators, -, rfl⟩ := h
  refine ⟨?_, ?_, ?_, ?_⟩
  · show names.registry = _
    rw [registry_checkTransferOp hnames, registry_checkNameOp hnamed]
    rfl
  · exact registry_checkLaunchOp hlaunched
  · show assets.registry = _
    rw [registry_checkTransferAssetOp hassets, registry_checkMintOp hminted]
    rfl
  · show assets.counts = _
    rw [(transfersChecked_of_foldlM hassets).counts, counts_checkMintOp hminted]
    rfl

end ChainState

end Haze
