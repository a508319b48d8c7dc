import Haze.Chain.Candidates
import Haze.Proposer.Round

/-!
# The registry roots in the header

The proposer folds the operations it keeps into snapshots of the registries and commits the header to
them. The chain folds the operations of the block into candidates while it checks them. Both folds
are the same function of the state and the operations, `namesAfter`, `collectionsAfter` and
`assetsAfter`, so the roots agree whatever the filters skip.
-/

namespace Haze

open Checked

variable {P : Crypto}

/-! ## The proposer's snapshots

While a loop filters, it also writes into a copy of the registry. The copy is what the kept operations alone
lead to. -/

namespace Proposer

variable (e : Env P) (s : ChainState P)

theorem registry_selectNameOps (tx : Transaction P) (ops : List (RegisterNameOp P)) :
    (selectNameOps s tx ops).registry =
      s.registerNames (nextHeight s) (selectNameOps s tx ops).nameOps := by
  refine foldl_induct (motive := fun acc : NameSelection P =>
    acc.registry = s.registerNames (nextHeight s) acc.nameOps) rfl ?_ ops
  intro acc op ih
  unfold selectNameOp
  split
  · exact ih
  · rw [ChainState.registerNames, List.foldl_append, ih]
    rfl

theorem registry_selectTransferOps (named : NameSelection P) (ops : List (TransferNameOp P)) :
    (selectTransferOps s named ops).registry =
      (selectTransferOps s named ops).transferOps.foldl s.transferName named.registry := by
  refine foldl_induct (motive := fun acc : TransferSelection P =>
    acc.registry = acc.transferOps.foldl s.transferName named.registry) rfl ?_ ops
  intro acc op ih
  unfold selectTransferOp
  split
  · exact ih
  next current hkeep =>
    simp only [keepsTransferOp, Option.bind_eq_bind, Option.bind_eq_some_iff, Option.pure_def,
      Option.some.injEq] at hkeep
    obtain ⟨-, -, _, hcur, -, -, rfl⟩ := hkeep
    rw [List.foldl_append, ← ih]
    simp only [List.foldl_cons, List.foldl_nil, ChainState.transferName, hcur]
    rfl

theorem registry_selectLaunchOps (ops : List (LaunchCollectionOp P)) :
    (selectLaunchOps s ops).registry =
      (selectLaunchOps s ops).launchCollectionOps.foldl
        (fun m op => m.insert op.collectionId (op.record (nextHeight s))) s.collectionRegistry := by
  refine foldl_induct (motive := fun acc : LaunchSelection P => acc.registry =
    acc.launchCollectionOps.foldl
      (fun m op => m.insert op.collectionId (op.record (nextHeight s))) s.collectionRegistry)
    rfl ?_ ops
  intro acc op ih
  unfold selectLaunchOp
  split
  · exact ih
  · rw [List.foldl_append, ← ih]
    rfl

theorem registry_selectMintOps (tx : Transaction P)
    (collections : KeyedMap String (CollectionRecord P)) (spent : Finset (Commitment P))
    (ops : List (MintAssetOp P)) :
    (selectMintOps e s tx collections spent ops).registry =
      s.mintAssets (nextHeight s) (selectMintOps e s tx collections spent ops).mintOps := by
  refine foldl_induct (motive := fun acc : MintSelection P =>
    acc.registry = s.mintAssets (nextHeight s) acc.mintOps) rfl ?_ ops
  intro acc op ih
  unfold selectMintOp
  split
  · exact ih
  · rw [ChainState.mintAssets, List.foldl_append, ih]
    rfl

theorem registry_selectTransferAssetOps (excesses : List (Commitment P))
    (collections : KeyedMap String (CollectionRecord P)) (minted : MintSelection P)
    (ops : List (TransferAssetOp P)) :
    (selectTransferAssetOps s excesses collections minted ops).registry =
      (selectTransferAssetOps s excesses collections minted ops).transferAssetOps.foldl
        s.transferAsset minted.registry := by
  refine foldl_induct (motive := fun acc : AssetTransferSelection P =>
    acc.registry = acc.transferAssetOps.foldl s.transferAsset minted.registry) rfl ?_ ops
  intro acc op ih
  unfold selectTransferAssetOp
  split
  · exact ih
  next current hkeep =>
    simp only [keepsTransferAssetOp, Option.bind_eq_bind, Option.bind_eq_some_iff, Option.pure_def,
      Option.some.injEq] at hkeep
    obtain ⟨-, -, _, hcur, -, -, -, -, -, -, rfl⟩ := hkeep
    rw [List.foldl_append, ← ih]
    simp only [List.foldl_cons, List.foldl_nil, ChainState.transferAsset, hcur]
    rfl

/-! ## The roots

The roots of the header are taken from the copies, the chain's from its own transition. -/

variable (d : Drained P) (validator : Validator P)

/-- The header commits to what the operations of its block lead to. -/
theorem roots_assembleBlock :
    let b := assembleBlock e s d validator
    b.header.nameRegistryRoot = computeRegistryRoot (s.namesAfter b) ∧
      b.header.collectionRegistryRoot = computeCollectionRegistryRoot (s.collectionsAfter b) ∧
      b.header.assetRegistryRoot = computeAssetRegistryRoot (s.assetsAfter b) := by
  refine ⟨?_, ?_, ?_⟩
  · show computeRegistryRoot (selectTransferOps s (selectNameOps s d.tx d.nameOps)
      d.transferOps).registry = _
    rw [registry_selectTransferOps, registry_selectNameOps]
    rfl
  · show computeCollectionRegistryRoot (selectLaunchOps s d.launchOps).registry = _
    rw [registry_selectLaunchOps]
    rfl
  · show computeAssetRegistryRoot (selectTransferAssetOps s _ _
      (selectMintOps e s d.tx _ _ d.mintOps) d.transferAssetOps).registry = _
    rw [registry_selectTransferAssetOps, registry_selectMintOps]
    rfl

/-- The header of a block carries the roots of the registries that its operations lead to, and these are
the registries that the loops of the chain arrive at. -/
structure RootsAgree (s : ChainState P) (b : Block P) : Prop where
  header : b.header.nameRegistryRoot = computeRegistryRoot (s.namesAfter b) ∧
    b.header.collectionRegistryRoot = computeCollectionRegistryRoot (s.collectionsAfter b) ∧
    b.header.assetRegistryRoot = computeAssetRegistryRoot (s.assetsAfter b)
  names : ∀ named names,
    b.nameOps.foldlM (s.checkNameOp b.height) ⟨b.body.spent.toFinset, ∅, s.nameRegistry⟩ =
      some named →
    b.transferOps.foldlM s.checkTransferOp named = some names →
      names.registry = s.namesAfter b
  collections : ∀ launched,
    b.launchCollectionOps.foldlM (s.checkLaunchOp b.height) ⟨∅, s.collectionRegistry⟩ =
      some launched → launched.registry = s.collectionsAfter b
  assets : ∀ collections spent minted assets,
    b.mintOps.foldlM (s.checkMintOp b collections)
      ⟨spent, ∅, s.assetRegistry, s.collectionMintCounts, []⟩ = some minted →
    b.transferAssetOps.foldlM (s.checkTransferAssetOp b) minted = some assets →
      assets.registry = s.assetsAfter b

/-- **The roots agree** in every block that the proposer assembles. -/
theorem roots_agree : RootsAgree s (assembleBlock e s d validator) := by
  refine ⟨roots_assembleBlock e s d validator, ?_, ?_, ?_⟩
  · intro named names hnamed hnames
    rw [ChainState.registry_checkTransferOp hnames, ChainState.registry_checkNameOp hnamed]
    rfl
  · intro launched hlaunched
    rw [ChainState.registry_checkLaunchOp hlaunched]
    rfl
  · intro collections spent minted assets hminted hassets
    rw [ChainState.registry_checkTransferAssetOp hassets, ChainState.registry_checkMintOp hminted]
    rfl

end Proposer

end Haze
