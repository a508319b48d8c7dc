import Haze.Chain.State
import Haze.Lib.Counter

/-!
# Applying a block on top of the tip (`ChainState::apply_linear_block`)

The source runs every check against the unchanged state first, building candidate registries on the
way, and only then mutates. The model keeps the two halves apart: `checkBlock` is the checks, in the
source's order, and returns the candidates; `commitBlock` is the state transition.

Each loop over operations is a checked fold whose accumulator holds exactly the local variables that
the source's loop mutates.
-/

namespace Haze

open Checked

variable {P : Crypto}

/-- A transaction as a move of coins. -/
def Transaction.move (tx : Transaction P) : Move (Commitment P) :=
  ⟨tx.spent, tx.created⟩

/-- The mint-count key of a mint that names a collection and a phase. -/
def MintAssetOp.countKey (op : MintAssetOp P) : Option MintKey :=
  match op.collectionId, op.phaseIndex with
  | some collectionId, some phaseIndex =>
      some (collectionId, phaseIndex, P.compress op.ownerPubkey.asPoint)
  | _, _ => none

namespace Block

/-- The body inputs that are removed when the block is applied; genesis has them ignored. -/
def bodySpent (b : Block P) : List (Commitment P) :=
  if b.height = 0 then [] else b.body.spent

/-- What a block does to the coins when it is applied. -/
def moves (b : Block P) : List (Move (Commitment P)) :=
  ⟨b.bodySpent, b.body.created⟩ :: b.payments.map Transaction.move

/-- Every excess the block itself adds, so that a condition can be met inside the block. -/
def blockKernelExcesses (b : Block P) : Finset (Commitment P) :=
  b.excesses.toFinset

end Block

namespace ChainState

variable (s : ChainState P) (b : Block P)

/-! ## Header checks (steps 1 and 2)

What a header has to say about the tip, and who may sign it. A block of height 0 is only taken on a fresh
state. -/

/-- Height and `prev_hash` connectivity. `current_height + 1` is compared as a number: at `u64::MAX`,
where the sum overflows, no block follows. -/
def connects : Bool :=
  if b.height.toNat ≠ s.currentHeight.toNat + 1 then
    -- the special case for the genesis block on a fresh state
    b.height == 0 && s.currentHeight == 0 && s.lastBlockHash == zeroHash
  else
    b.header.prevHash == s.lastBlockHash

/-- The sum as a number is the sum in `u64` where this does not overflow. -/
theorem toNat_eq_next_iff {height current : UInt64} (h : current.toNat + 1 < UInt64.size) :
    height.toNat = current.toNat + 1 ↔ height = current + 1 := by
  have hsum : (current + 1).toNat = current.toNat + 1 := by
    rw [UInt64.toNat_add]
    exact Nat.mod_eq_of_lt h
  rw [← hsum, UInt64.toNat_inj]

/-- Below `u64::MAX`, the comparison is the one in `u64`. -/
theorem connects_eq (h : s.currentHeight.toNat + 1 < UInt64.size) : s.connects b =
    if b.height ≠ s.currentHeight + 1 then
      b.height == 0 && s.currentHeight == 0 && s.lastBlockHash == zeroHash
    else
      b.header.prevHash == s.lastBlockHash := by
  simp only [connects, ne_eq, toNat_eq_next_iff h]

/-- The stake the proposer signs for: any registered validator, or the bootstrap output while there
is none. -/
def stakeValue (proposer : Commitment P) : Option UInt64 :=
  if s.activeValidators.isEmpty then
    if proposer = genesisDefault P then some genesisStake else none
  else
    (s.activeValidators.find? fun v => v.commitment == proposer).map Validator.value

def proposerSigned : Option Unit := do
  let stake ← s.stakeValue b.header.validatorCommitment
  let key := stakeKey b.header.validatorCommitment stake
  ensure (b.height == 0 || b.header.validatorSignature.verify b.header.signingHash.toList key)

/-- A kernel with this excess is on the chain or in the block itself. -/
def satisfied (excess : Commitment P) : Bool :=
  excess ∈ s.kernelExcesses || excess ∈ b.blockKernelExcesses

def conditionMet (required : Option (Commitment P)) : Bool :=
  required.all (s.satisfied b)

/-! ## Names (steps 4b and 4c)

The registrations come first, then the transfers. No name is named twice in one block, so a name cannot be
registered and handed on in it; who owns a name is read from the state before the block. -/

/-- `spent_this_block`, `names_this_block` and `candidate_registry`. -/
structure NameCheck (P : Crypto) where
  spent : Finset (Commitment P)
  names : Finset String
  registry : KeyedMap String (NameRecord P)

def checkNameOp (height : UInt64) (acc : NameCheck P) (op : RegisterNameOp P) :
    Option (NameCheck P) := do
  ensure op.validateStandalone.isOk
  ensure (op.name ∉ s.nameRegistry && op.name ∉ acc.names)
  let spent ← Coins.claimAll s.utxos acc.spent op.feePayment.spent
  let record : NameRecord P := ⟨op.name, op.ownerPubkey, op.resolvesTo, height⟩
  return ⟨spent, insert op.name acc.names, acc.registry.insert op.name record⟩

def checkTransferOp (acc : NameCheck P) (op : TransferNameOp P) : Option (NameCheck P) := do
  ensure (op.name ∉ acc.names)
  let current ← s.nameRegistry.lookup op.name
  let msg := TransferNameOp.signingMessage op.name op.newOwnerPubkey op.newResolvesTo
  ensure (op.signature.verify msg current.ownerPubkey)
  let record : NameRecord P :=
    ⟨op.name, op.newOwnerPubkey, op.newResolvesTo, current.registeredAtBlock⟩
  return { acc with
    names := insert op.name acc.names
    registry := acc.registry.insert op.name record }

/-! ## Collections (step 4c-prep)

A mint may be of a collection that the same block launches, so the launches are checked first. -/

/-- `collections_this_block` and `candidate_collection_registry`. -/
structure LaunchCheck (P : Crypto) where
  collections : Finset String
  registry : KeyedMap String (CollectionRecord P)

def checkLaunchOp (height : UInt64) (acc : LaunchCheck P) (op : LaunchCollectionOp P) :
    Option (LaunchCheck P) := do
  ensure op.validateStandalone.isOk
  ensure (op.collectionId ∉ s.collectionRegistry && op.collectionId ∉ acc.collections)
  let record : CollectionRecord P :=
    ⟨op.collectionId, op.creatorPubkey, op.name, op.symbol, op.metadata, op.phases, height,
      op.royaltyBps⟩
  return ⟨insert op.collectionId acc.collections, acc.registry.insert op.collectionId record⟩

/-! ## Assets (steps 4d and 4e)

A mint of a collection needs a phase that is open, a place on its allowlist if there is one, an approval of
the creator that names a payment, and room below the limit of the wallet. Each mint that passes is counted
at once, for the ones behind it in the block. -/

/-- `spent_this_block`, `assets_this_block`, `candidate_asset_registry`, `candidate_mint_counts` and
`collection_mints_this_block`. -/
structure MintCheck (P : Crypto) where
  spent : Finset (Commitment P)
  assets : Finset String
  registry : KeyedMap String (AssetRecord P)
  counts : KeyedMap MintKey UInt32
  mints : List MintKey

/-- A phase with an allowlist needs a Merkle proof of the owner's key. -/
def allowlisted (phase : MintPhase) (op : MintAssetOp P) : Bool :=
  match phase.allowlistMerkleRoot, op.allowlistProof, op.allowlistLeafIndex with
  | some root, some proof, some leafIndex =>
      verifyMerkleProof P (allowlistLeaf op.ownerPubkey) proof leafIndex.toNat root
  | some _, _, _ => false
  | none, _, _ => true

/-- The extra rules of a mint that names a collection and a phase: the phase exists and is open, the
allowlist admits the owner, the creator approved this payment, and the wallet is under its limit. -/
def checkCollectionMint (collections : KeyedMap String (CollectionRecord P))
    (counts : KeyedMap MintKey UInt32) (op : MintAssetOp P) (collectionId : String)
    (phaseIndex : UInt32) : Option Unit := do
  let collection ← collections.lookup collectionId
  let phase ← collection.phases[phaseIndex.toNat]?
  ensure (phase.startTime ≤ b.header.timestamp && b.header.timestamp < phase.endTime)
  ensure (allowlisted phase op)
  let requiredExcess ← op.requiredKernelExcess
  let creatorSig ← op.creatorSignature
  let approval := MintAssetOp.collectionApprovalSigningMessage op.assetId collectionId phaseIndex
    requiredExcess op.ownerPubkey
  ensure (creatorSig.verify approval collection.creatorPubkey)
  let key : MintKey := (collectionId, phaseIndex, P.compress op.ownerPubkey.asPoint)
  ensure ((counts.lookup key).getD 0 < phase.perWalletLimit)

def checkMintCount (collections : KeyedMap String (CollectionRecord P)) (acc : MintCheck P)
    (op : MintAssetOp P) : Option (KeyedMap MintKey UInt32 × List MintKey) :=
  match op.collectionId, op.phaseIndex with
  | some collectionId, some phaseIndex => do
      checkCollectionMint b collections acc.counts op collectionId phaseIndex
      let key : MintKey := (collectionId, phaseIndex, P.compress op.ownerPubkey.asPoint)
      return (Counter.bump acc.counts key, acc.mints ++ [key])
  | _, _ => some (acc.counts, acc.mints)

def checkMintOp (collections : KeyedMap String (CollectionRecord P)) (acc : MintCheck P)
    (op : MintAssetOp P) : Option (MintCheck P) := do
  ensure op.validateStandalone.isOk
  ensure (op.assetId ∉ s.assetRegistry && op.assetId ∉ acc.assets)
  let spent ← Coins.claimAll s.utxos acc.spent op.feePayment.spent
  let counted ← checkMintCount b collections acc op
  ensure (s.conditionMet b op.requiredKernelExcess)
  let record : AssetRecord P :=
    ⟨op.assetId, op.ownerPubkey, op.metadata, b.height, op.collectionId⟩
  return ⟨spent, insert op.assetId acc.assets, acc.registry.insert op.assetId record, counted.1,
    counted.2⟩

/-- The royalty rule: a sale of an asset whose collection charges a royalty needs the second payment
as well; an unconditional transfer does not. -/
def royaltyMet (current : AssetRecord P) (op : TransferAssetOp P) : Bool :=
  match op.requiredKernelExcess, current.collectionId.bind fun id => s.collectionRegistry.lookup id with
  | some _, some collection =>
      if collection.royaltyBps > 0 then
        op.requiredRoyaltyKernelExcess.any (s.satisfied b)
      else
        true
  | _, _ => true

def checkTransferAssetOp (acc : MintCheck P) (op : TransferAssetOp P) : Option (MintCheck P) := do
  ensure (op.assetId ∉ acc.assets)
  let current ← s.assetRegistry.lookup op.assetId
  let msg := TransferAssetOp.signingMessage op.assetId op.newOwnerPubkey op.requiredKernelExcess
    op.requiredRoyaltyKernelExcess
  ensure (op.signature.verify msg current.ownerPubkey)
  ensure (s.conditionMet b op.requiredKernelExcess)
  ensure (s.royaltyMet b current op)
  let record : AssetRecord P :=
    ⟨op.assetId, op.newOwnerPubkey, current.metadata, current.mintedAtBlock, current.collectionId⟩
  return { acc with
    assets := insert op.assetId acc.assets
    registry := acc.registry.insert op.assetId record }

/-! ## All checks, then the transition

The checks fill a `Candidate` with the registries as they will be. Only when all have passed, the state is
changed, and nothing can fail any more. -/

/-- The candidates that the checks build and the transition reads. -/
structure Candidate (P : Crypto) where
  registry : KeyedMap String (NameRecord P)
  collections : KeyedMap String (CollectionRecord P)
  assets : KeyedMap String (AssetRecord P)
  counts : KeyedMap MintKey UInt32
  mints : List MintKey
  validators : List (Validator P)

/-- Steps 1 to 4e: everything that can reject the block. -/
def checkBlock : Option (Candidate P) := do
  ensure (s.connects b)
  s.proposerSigned b
  ensure (b.body.validateWithReward b.reward)
  ensure (b.header.chainId == chainId)
  ensure (!spendsLockedOutputEarly b.body.inputs b.height)
  ensure (b.height == 0 || b.body.spent.all (· ∈ s.utxos))
  let named ← b.nameOps.foldlM (s.checkNameOp b.height) ⟨b.body.spent.toFinset, ∅, s.nameRegistry⟩
  let names ← b.transferOps.foldlM s.checkTransferOp named
  ensure (computeRegistryRoot names.registry == b.header.nameRegistryRoot)
  let launched ← b.launchCollectionOps.foldlM (s.checkLaunchOp b.height) ⟨∅, s.collectionRegistry⟩
  ensure (computeCollectionRegistryRoot launched.registry == b.header.collectionRegistryRoot)
  let minted ← b.mintOps.foldlM (s.checkMintOp b launched.registry)
    ⟨names.spent, ∅, s.assetRegistry, s.collectionMintCounts, []⟩
  let assets ← b.transferAssetOps.foldlM (s.checkTransferAssetOp b) minted
  ensure (computeAssetRegistryRoot assets.registry == b.header.assetRegistryRoot)
  let validators ← b.validatorOps.foldlM
    (fun vs op => tryRegisterValidator vs s.utxos op) s.activeValidators
  return ⟨names.registry, launched.registry, assets.registry, assets.counts, assets.mints,
    validators⟩

/-- An undo record is only kept when there is something to undo. -/
def saveSnapshot {V : Type} (snapshots : KeyedMap UInt64 (List (String × V))) (height : UInt64)
    (replaced : List (String × V)) : KeyedMap UInt64 (List (String × V)) :=
  if replaced.isEmpty then snapshots else snapshots.insert height replaced

/-- Steps 5 to 8. The source indexes the candidates with `[]`, which panics on a missing key; the
checks put every key there. -/
def commitBlock (c : Candidate P) : ChainState P × AppliedDelta P :=
  let names := KeyedMap.insertFrom c.registry s.nameRegistry (b.nameOps.map RegisterNameOp.name)
  let transfers := KeyedMap.replaceFrom c.registry names.1 (b.transferOps.map TransferNameOp.name)
  let collections := KeyedMap.insertFrom c.collections s.collectionRegistry
    (b.launchCollectionOps.map LaunchCollectionOp.collectionId)
  let assets := KeyedMap.insertFrom c.assets s.assetRegistry (b.mintOps.map MintAssetOp.assetId)
  let counts := KeyedMap.insertFrom c.counts s.collectionMintCounts c.mints
  let assetTransfers := KeyedMap.replaceFrom c.assets assets.1
    (b.transferAssetOps.map TransferAssetOp.assetId)
  -- a validator whose stake the body spends is dropped, also when this block registered it
  let validators := c.validators.filter fun v => v.commitment ∉ b.bodySpent
  let state : ChainState P :=
    { utxos := Coins.applyAll s.utxos b.moves
      kernels := s.kernels ++ b.kernels
      kernelExcesses := Coins.create s.kernelExcesses b.excesses
      currentHeight := b.height
      lastBlockHash := b.hash
      activeValidators := validators
      blocks := s.blocks.insert b.hash b
      validatorSnapshots := s.validatorSnapshots.insert b.height s.activeValidators
      nameRegistry := transfers.1
      transferSnapshots := saveSnapshot s.transferSnapshots b.height transfers.2
      assetRegistry := assetTransfers.1
      assetTransferSnapshots := saveSnapshot s.assetTransferSnapshots b.height assetTransfers.2
      collectionRegistry := collections.1
      collectionMintCounts := counts.1
      pruneMeta := s.pruneMeta }
  let delta : AppliedDelta P :=
    { block := b
      spentCommitments := b.bodySpent ++ b.payments.flatMap Transaction.spent
      newOutputs := b.transactions.flatMap Transaction.outputs
      newKernels := b.kernels
      validatorSnapshot := (b.height, s.activeValidators)
      activeValidatorsAfter := validators
      newNames := names.2
      transferredNames := transfers.2
      newAssets := assets.2
      transferredAssets := assetTransfers.2
      newCollections := collections.2
      collectionMintsThisBlock := c.mints
      height := b.height
      tipHash := b.hash }
  (state, delta)

/-- `ChainState::apply_linear_block`. -/
def applyLinearBlock : Option (ChainState P × AppliedDelta P) :=
  (s.checkBlock b).map (s.commitBlock b)

end ChainState

end Haze
