import Haze.Chain.Runs

/-!
# The checks of a block in three parts

`checkBlock` interleaves the checks of header and body, the loops over the operations, and the
comparison of the registry roots. Whoever builds a block has to satisfy all three; they are taken
apart here, so that each can be established on its own.
-/

namespace Haze

open Checked

variable {P : Crypto}

/-- The six lists of operations are empty. -/
structure Block.OpFree (b : Block P) : Prop where
  nameOps : b.nameOps = []
  transferOps : b.transferOps = []
  launchCollectionOps : b.launchCollectionOps = []
  mintOps : b.mintOps = []
  transferAssetOps : b.transferAssetOps = []
  validatorOps : b.validatorOps = []

instance (b : Block P) : Decidable b.OpFree :=
  decidable_of_iff ((b.nameOps.isEmpty && b.transferOps.isEmpty && b.launchCollectionOps.isEmpty &&
      b.mintOps.isEmpty && b.transferAssetOps.isEmpty && b.validatorOps.isEmpty) = true) <| by
    simp only [Bool.and_eq_true, List.isEmpty_iff, and_assoc]
    exact ⟨fun ⟨h₁, h₂, h₃, h₄, h₅, h₆⟩ => ⟨h₁, h₂, h₃, h₄, h₅, h₆⟩,
      fun h => ⟨h.1, h.2, h.3, h.4, h.5, h.6⟩⟩

namespace ChainState

variable (s : ChainState P) (b : Block P)

/-- The loops over the operations, without the roots. -/
def checkOps : Option (Candidate P) := do
  let named ← b.nameOps.foldlM (s.checkNameOp b.height) ⟨b.body.spent.toFinset, ∅, s.nameRegistry⟩
  let names ← b.transferOps.foldlM s.checkTransferOp named
  let launched ← b.launchCollectionOps.foldlM (s.checkLaunchOp b.height) ⟨∅, s.collectionRegistry⟩
  let minted ← b.mintOps.foldlM (s.checkMintOp b launched.registry)
    ⟨names.spent, ∅, s.assetRegistry, s.collectionMintCounts, []⟩
  let assets ← b.transferAssetOps.foldlM (s.checkTransferAssetOp b) minted
  let validators ← b.validatorOps.foldlM
    (fun vs op => tryRegisterValidator vs s.utxos op) s.activeValidators
  return ⟨names.registry, launched.registry, assets.registry, assets.counts, assets.mints,
    validators⟩

/-- What is checked of the header and the body. -/
structure BodyChecked : Prop where
  connects : s.connects b = true
  signed : s.proposerSigned b = some ()
  valid : b.body.validateWithReward b.reward = true
  chainId : b.header.chainId = Haze.chainId
  unlocked : spendsLockedOutputEarly b.body.inputs b.height = false
  inputs : b.height = 0 ∨ ∀ c ∈ b.body.spent, c ∈ s.utxos

/-- The header commits to the registries that the operations lead to. -/
structure RootsMatch (c : Candidate P) : Prop where
  names : computeRegistryRoot c.registry = b.header.nameRegistryRoot
  collections : computeCollectionRegistryRoot c.collections = b.header.collectionRegistryRoot
  assets : computeAssetRegistryRoot c.assets = b.header.assetRegistryRoot

variable {s b}

theorem checkBlock_eq_some_iff {c : Candidate P} :
    s.checkBlock b = some c ↔ BodyChecked s b ∧ s.checkOps b = some c ∧ RootsMatch b c := by
  simp only [checkBlock, checkOps, Option.bind_eq_bind, Option.bind_eq_some_iff, ensure_eq_some,
    exists_const, Option.pure_def, Option.some.injEq, beq_iff_eq, Bool.not_eq_true', Bool.or_eq_true,
    List.all_eq_true, decide_eq_true_eq]
  constructor
  · rintro ⟨hconn, u, hsigned, hvalid, hid, hlock, hins, named, hnamed, names, hnames, hroot,
      launched, hlaunched, hroot', minted, hminted, assets, hassets, hroot'', validators,
      hvalidators, rfl⟩
    exact ⟨⟨hconn, hsigned, hvalid, hid, hlock, hins⟩,
      ⟨named, hnamed, names, hnames, launched, hlaunched, minted, hminted, assets, hassets,
        validators, hvalidators, rfl⟩, ⟨hroot, hroot', hroot''⟩⟩
  · rintro ⟨hbody, ⟨named, hnamed, names, hnames, launched, hlaunched, minted, hminted, assets,
      hassets, validators, hvalidators, rfl⟩, hroots⟩
    exact ⟨hbody.connects, (), hbody.signed, hbody.valid, hbody.chainId, hbody.unlocked,
      hbody.inputs, named, hnamed, names, hnames, hroots.names, launched, hlaunched,
      hroots.collections, minted, hminted, assets, hassets, hroots.assets, validators, hvalidators,
      rfl⟩

theorem validators_of_checkBlock {c : Candidate P} (h : s.checkBlock b = some c) :
    b.validatorOps.foldlM (fun vs op => tryRegisterValidator vs s.utxos op) s.activeValidators =
      some c.validators := by
  obtain ⟨-, hops, -⟩ := checkBlock_eq_some_iff.mp h
  simp only [checkOps, Option.bind_eq_bind, Option.bind_eq_some_iff, Option.pure_def,
    Option.some.injEq] at hops
  obtain ⟨-, -, -, -, -, -, -, -, -, -, validators, hvalidators, rfl⟩ := hops
  exact hvalidators

/-- Without operations the candidate is the state. -/
theorem checkOps_of_opFree (h : b.OpFree) :
    s.checkOps b = some ⟨s.nameRegistry, s.collectionRegistry, s.assetRegistry,
      s.collectionMintCounts, [], s.activeValidators⟩ := by
  simp [checkOps, h.nameOps, h.transferOps, h.launchCollectionOps, h.mintOps, h.transferAssetOps,
    h.validatorOps]

/-- A block on top of the tip is applied exactly when its body is valid and the checks pass. -/
theorem isApplied_iff_of_isLinear (hlin : s.isLinear b = true) :
    (s.applyBlock b).2.isApplied = true ↔ b.validate = true ∧ (s.checkBlock b).isSome = true := by
  have hcheck : (s.storeBlock b).applyLinearBlock b =
      (s.checkBlock b).map ((s.storeBlock b).commitBlock b) := rfl
  by_cases hval : b.validate = true
  · cases hc : s.checkBlock b with
    | none =>
        rw [hc] at hcheck
        simp [applyBlock, hval, hlin, hcheck, ApplyResult.isApplied]
    | some c =>
        rw [hc] at hcheck
        simp [applyBlock, hval, hlin, hcheck, ApplyResult.isApplied]
  · simp [applyBlock, hval, ApplyResult.isApplied]

end ChainState

end Haze
