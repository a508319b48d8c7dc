import Haze.Chain.Aggregate

/-!
# Horizon pruning (`core/src/compaction.rs`)

A node drops the outputs of old blocks that have been spent, and the inputs that spent them, from the
blocks it stores. The header hash covers neither, so the blocks keep their places; what a peer then
gets of them no longer balances.

The source collects what to drop by iterating over a `HashMap`, in an unspecified order, and of two
stored blocks that spend the same commitment only the later one in that order counts. The order is an
argument here.
-/

namespace Haze

open Checked

variable {P : Crypto}

/-- The default of the background task. -/
def cutThroughHorizon : UInt64 := 1000

structure CompactionReport where
  touchedBlocks : List Bytes32
  outputsPruned : ℕ
  inputsPruned : ℕ
  validatorSnapshotsPruned : ℕ
  transferSnapshotsPruned : ℕ

namespace Block

variable (b : Block P)

/-- What counts as spent in a block: the body and the name registrations, not the mints. -/
def prunableSpent : List (Commitment P) :=
  b.body.spent ++ b.nameOps.flatMap fun op => op.feePayment.spent

def prunableCreated : List (Commitment P) :=
  b.body.created ++ b.nameOps.flatMap fun op => op.feePayment.created

end Block

def Transaction.prune (tx : Transaction P) (outs ins : List (Commitment P)) : Transaction P :=
  { tx with
    outputs := tx.outputs.filter fun o => o.commitment ∉ outs
    inputs := tx.inputs.filter fun i => i.commitment ∉ ins }

/-- The block without the given outputs and inputs. -/
def Block.prune (b : Block P) (outs ins : List (Commitment P)) : Block P :=
  { b with
    body := b.body.prune outs ins
    nameOps := b.nameOps.map fun op => { op with feePayment := op.feePayment.prune outs ins } }

/-- How many entries `Block.prune` takes out, added to what was taken out before. -/
def BlockPruneMeta.add (m : BlockPruneMeta) (b : Block P) (outs ins : List (Commitment P)) :
    BlockPruneMeta :=
  let pruned := b.prune outs ins
  { prunedInputs := m.prunedInputs
      + UInt32.ofNat (b.prunableSpent.length - pruned.prunableSpent.length)
    prunedOutputs := m.prunedOutputs
      + UInt32.ofNat (b.prunableCreated.length - pruned.prunableCreated.length) }

namespace ChainState

variable (s : ChainState P)

/-- `spent_in`: the block that spends a commitment, and its height. -/
def spentIn (order : List Bytes32) : KeyedMap (Commitment P) (Bytes32 × UInt64) :=
  order.foldl (fun m hash =>
    match s.blocks.lookup hash with
    | some b => b.prunableSpent.foldl (fun m c => m.insert c (hash, b.height)) m
    | none => m) ∅

/-- `consider`: the block whose spending of `c` is deep enough, if there is one. -/
def deepSpend (spent : KeyedMap (Commitment P) (Bytes32 × UInt64)) (horizon : UInt64)
    (c : Commitment P) : Option Bytes32 := do
  ensure (c ∉ s.utxos)
  let (spendHash, spendHeight) ← spent.lookup c
  ensure (!(spendHeight + horizon > s.currentHeight))
  return spendHash

/-- Phase 1: the commitments to drop, with the block that created and the block that spent them. -/
def prunePairs (order : List Bytes32) (horizon : UInt64) :
    List (Bytes32 × Commitment P × Bytes32) :=
  let spent := s.spentIn order
  order.flatMap fun hash =>
    match s.blocks.lookup hash with
    | some b =>
        if b.height ≥ saturatingSub s.currentHeight horizon then []
        else b.prunableCreated.filterMap fun c =>
          (s.deepSpend spent horizon c).map fun spendHash => (hash, c, spendHash)
    | none => []

/-- `compact`. -/
def compact (order : List Bytes32) (horizon : UInt64) : ChainState P × CompactionReport :=
  let horizonHeight := saturatingSub s.currentHeight horizon
  let pairs := s.prunePairs order horizon
  let outs := fun hash => (pairs.filter fun p => p.1 == hash).map fun p => p.2.1
  let ins := fun hash => (pairs.filter fun p => p.2.2 == hash).map fun p => p.2.1
  let touched := order.filter fun hash => !(outs hash).isEmpty || !(ins hash).isEmpty
  let validatorSnapshots := s.validatorSnapshots.retain fun h => decide (h ≥ horizonHeight)
  let transferSnapshots := s.transferSnapshots.retain fun h => decide (h ≥ horizonHeight)
  -- phase 2
  let pruned := touched.foldl (fun acc hash =>
    match s.blocks.lookup hash with
    | some b =>
        (acc.1.insert hash (b.prune (outs hash) (ins hash)),
          acc.2.insert hash (((s.pruneMeta.lookup hash).getD ⟨0, 0⟩).add b (outs hash) (ins hash)))
    | none => acc) (s.blocks, s.pruneMeta)
  let state : ChainState P :=
    { s with
      blocks := pruned.1
      pruneMeta := pruned.2
      validatorSnapshots := validatorSnapshots
      transferSnapshots := transferSnapshots }
  let report : CompactionReport :=
    { touchedBlocks := touched
      outputsPruned := (touched.map fun hash => (outs hash).toFinset.card).sum
      inputsPruned := (touched.map fun hash => (ins hash).toFinset.card).sum
      validatorSnapshotsPruned := s.validatorSnapshots.keys.card - validatorSnapshots.keys.card
      transferSnapshotsPruned := s.transferSnapshots.keys.card - transferSnapshots.keys.card }
  (state, report)

end ChainState

end Haze
