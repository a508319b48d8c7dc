import Haze.Chain.Apply

/-!
# Rolling back and reorganizing

`ChainState::rollback_block`, `find_reorg_path` and `apply_block`, and the active chain as the walk
over `prev_hash` links that reads it back from the store.

The walks follow hashes through the block store, so they take fuel: a walk that visits more hashes
than the store holds has entered a cycle, on which the source would not return.
-/

namespace Haze

variable {P : Crypto}

namespace ChainState

variable (s : ChainState P)

/-! ## Rollback

A rollback takes back the block at the tip with what was written down about it when it was applied. -/

/-- `kernels.retain(|k| k.excess != excess)` for each excess in turn. -/
def removeKernels (kernels : List (TxKernel P)) (excesses : List (Commitment P)) :
    List (TxKernel P) :=
  excesses.foldl (fun ks e => ks.filter fun k => k.excess ≠ e) kernels

/-- The undo record of the tip, empty when none was kept. -/
def tipSnapshot {V : Type} (snapshots : KeyedMap UInt64 (List (String × V))) (height : UInt64) :
    List (String × V) :=
  (snapshots.lookup height).getD []

/-- The body of `rollback_block`, once the tip block has been found. -/
def revertBlock (tip : Block P) : ChainState P × RollbackDelta P :=
  let prevHeight := s.currentHeight - 1
  -- the snapshot that is read is the one written before the block *below* the tip
  let validators := (s.validatorSnapshots.lookup prevHeight).getD []
  let names := tip.nameOps.map RegisterNameOp.name
  let assets := tip.mintOps.map MintAssetOp.assetId
  let collections := tip.launchCollectionOps.map LaunchCollectionOp.collectionId
  let state : ChainState P :=
    { utxos := Coins.revertAll s.utxos (tip.transactions.map Transaction.move)
      kernels := removeKernels s.kernels tip.excesses
      kernelExcesses := Coins.spend s.kernelExcesses tip.excesses
      currentHeight := prevHeight
      lastBlockHash := tip.header.prevHash
      activeValidators := validators
      blocks := s.blocks
      validatorSnapshots := s.validatorSnapshots.erase s.currentHeight
      nameRegistry := KeyedMap.insertAll (KeyedMap.eraseAll s.nameRegistry names)
        (tipSnapshot s.transferSnapshots s.currentHeight)
      transferSnapshots := s.transferSnapshots.erase s.currentHeight
      assetRegistry := KeyedMap.insertAll (KeyedMap.eraseAll s.assetRegistry assets)
        (tipSnapshot s.assetTransferSnapshots s.currentHeight)
      assetTransferSnapshots := s.assetTransferSnapshots.erase s.currentHeight
      collectionRegistry := KeyedMap.eraseAll s.collectionRegistry collections
      collectionMintCounts :=
        (tip.mintOps.filterMap MintAssetOp.countKey).foldl Counter.unbump s.collectionMintCounts
      pruneMeta := s.pruneMeta }
  let delta : RollbackDelta P :=
    { unConsumedOutputs := tip.created
      restoredInputs := tip.consumed
      removedKernelExcesses := tip.excesses
      activeValidatorsAfter := validators
      removedNames := names
      removedAssets := assets
      removedCollections := collections
      newHeight := prevHeight
      newTip := tip.header.prevHash }
  (state, delta)

/-- `ChainState::rollback_block`. -/
def rollbackBlock : Option (ChainState P × RollbackDelta P) :=
  if s.currentHeight = 0 then none
  else (s.blocks.lookup s.lastBlockHash).map s.revertBlock

/-! ## Walking the block store

From a hash down along the parents, as far as the blocks are stored. -/

/-- The blocks met from `hash` down to one of height 0, newest first, as `get_blocks_from` reads the
active chain. -/
def walk (blocks : KeyedMap Bytes32 (Block P)) : ℕ → Bytes32 → List (Block P)
  | 0, _ => []
  | fuel + 1, hash =>
      match blocks.lookup hash with
      | none => []
      | some b => b :: if b.height = 0 then [] else walk blocks fuel b.header.prevHash

/-- The active chain, tip first. A chain of height `n` has at most `n + 1` blocks. -/
def activeChain : List (Block P) :=
  walk s.blocks (s.currentHeight.toNat + 1) s.lastBlockHash

/-- The hashes met when walking `prev_hash` from the tip, for as long as blocks are found. -/
inductive OnWalk (s : ChainState P) : Bytes32 → Prop
  | tip : OnWalk s s.lastBlockHash
  | prev {hash : Bytes32} {b : Block P} :
      OnWalk s hash → s.blocks.lookup hash = some b → OnWalk s b.header.prevHash

/-! ## Reorganization

A block that is higher than the tip and not on top of it may be the end of a fork. The fork is walked down
to the active chain, and then the chain is turned over to it in a copy of the state. -/

-- the inner loop of `find_reorg_path`: is `target` met when walking down from `trace`?
def isOnChain (blocks : KeyedMap Bytes32 (Block P)) (target : Bytes32) : ℕ → Bytes32 → Bool
  | 0, _ => false
  | fuel + 1, trace =>
      if trace = zeroHash then false
      else if trace = target then true
      else
        match blocks.lookup trace with
        | some b => isOnChain blocks target fuel b.header.prevHash
        | none => false

-- the hashes from `trace` down to `target`, exclusive
def rollbackHashes (blocks : KeyedMap Bytes32 (Block P)) (target : Bytes32) :
    ℕ → Bytes32 → List Bytes32
  | 0, _ => []
  | fuel + 1, trace =>
      if trace = target ∨ trace = zeroHash then []
      else
        trace ::
          match blocks.lookup trace with
          | some b => rollbackHashes blocks target fuel b.header.prevHash
          | none => []

/-- The outer loop of `find_reorg_path`. The source pushes parents and reverses at the end; consing
them gives the same list. -/
def reorgWalk (walkFuel : ℕ) : ℕ → Bytes32 → List (Block P) → Option (List Bytes32 × List (Block P))
  | 0, _, _ => none
  | fuel + 1, hash, forkBlocks =>
      if hash = zeroHash then none
      else if isOnChain s.blocks hash walkFuel s.lastBlockHash then
        some (rollbackHashes s.blocks hash walkFuel s.lastBlockHash, forkBlocks)
      else
        match s.blocks.lookup hash with
        | some parent => reorgWalk walkFuel fuel parent.header.prevHash (parent :: forkBlocks)
        | none => none

/-- `ChainState::find_reorg_path`. -/
def findReorgPath (newBlock : Block P) : Option (List Bytes32 × List (Block P)) :=
  let fuel := s.blocks.keys.card + 1
  s.reorgWalk fuel fuel newBlock.header.prevHash [newBlock]

/-- Roll back once for each hash of the list. -/
def rollbackAll : List Bytes32 → ChainState P → Option (ChainState P × List (RollbackDelta P))
  | [], s => some (s, [])
  | _ :: hashes, s => do
      let (s₁, delta) ← s.rollbackBlock
      let (s₂, deltas) ← rollbackAll hashes s₁
      return (s₂, delta :: deltas)

/-- Apply the blocks one after another. -/
def applyAll : List (Block P) → ChainState P → Option (ChainState P × List (AppliedDelta P))
  | [], s => some (s, [])
  | b :: bs, s => do
      let (s₁, delta) ← s.applyLinearBlock b
      let (s₂, deltas) ← applyAll bs s₁
      return (s₂, delta :: deltas)

/-- The sandbox of a reorganization: roll back to the fork point, then apply the fork. -/
def reorganize (hashes : List Bytes32) (forkBlocks : List (Block P)) :
    Option (ChainState P × ApplyResult P) := do
  let (s₁, rollbacks) ← rollbackAll hashes s
  let (s₂, applies) ← applyAll forkBlocks s₁
  return (s₂, .reorg rollbacks applies)

/-- Case 1 of `apply_block`: on top of the tip, or genesis on a fresh state. -/
def isLinear (b : Block P) : Bool :=
  (b.height.toNat == s.currentHeight.toNat + 1 && b.header.prevHash == s.lastBlockHash)
    || (b.height == 0 && s.currentHeight == 0 && s.lastBlockHash == zeroHash)

/-- As for `connects`, below `u64::MAX` the heights are compared as in `u64`. -/
theorem isLinear_eq {b : Block P} (h : s.currentHeight.toNat + 1 < UInt64.size) : s.isLinear b =
    ((b.height == s.currentHeight + 1 && b.header.prevHash == s.lastBlockHash)
      || (b.height == 0 && s.currentHeight == 0 && s.lastBlockHash == zeroHash)) := by
  have hnext : (b.height.toNat == s.currentHeight.toNat + 1) = (b.height == s.currentHeight + 1) := by
    rw [Bool.eq_iff_iff, beq_iff_eq, beq_iff_eq]
    exact toNat_eq_next_iff h
  rw [isLinear, hnext]

/-- The block is stored before anything that needs chain state is checked. -/
def storeBlock (b : Block P) : ChainState P :=
  { s with blocks := s.blocks.insert b.hash b }

/-- `ChainState::apply_block`: the state afterwards and the outcome. -/
def applyBlock (b : Block P) : ChainState P × ApplyResult P :=
  if !b.validate then (s, .rejected)
  else
    let stored := s.storeBlock b
    if s.isLinear b then
      match stored.applyLinearBlock b with
      | some (s', delta) => (s', .linear delta)
      | none => (stored, .rejected)
    else if b.height > s.currentHeight then
      match stored.findReorgPath b with
      | some (hashes, forkBlocks) => (stored.reorganize hashes forkBlocks).getD (stored, .rejected)
      | none => (stored, .rejected)
    else
      (stored, .rejected)

/-- The state after a sequence of `apply_block` calls on a fresh node. -/
def deliver (bs : List (Block P)) : ChainState P :=
  bs.foldl (fun s b => (s.applyBlock b).1) ChainState.new

end ChainState

end Haze
