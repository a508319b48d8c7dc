import Haze.Block
import Haze.Lib.Checked
import Haze.Lib.Coins

/-!
# Chain state (`core/src/chain.rs`, `compaction.rs`)

The state a node keeps and what applying or rolling back a block reports. The source's `HashSet` is a
`Finset` and its `HashMap` a `KeyedMap`, so two states are equal when they hold the same entries.
-/

namespace Haze

open Checked

variable {P : Crypto}

structure Validator (P : Crypto) where
  commitment : Commitment P
  value : UInt64
  proof : Signature P
  deriving DecidableEq

def minValidatorStake : UInt64 := 1
def maxActiveValidators : ℕ := 1000

/-- Binds a stake registration to one commitment and one value. -/
def stakeRegistrationMessage (commitment : Commitment P) (value : UInt64) : List UInt8 :=
  asBytes "HazeStakeRegistration:" ++ commitment.toBytes ++ toLeBytes 8 value.toNat

/-- The public key behind a stake: the commitment with its value taken off. -/
def stakeKey (commitment : Commitment P) (value : UInt64) : Commitment P :=
  ⟨commitment.asPoint - (value.toNat : P.Scalar) • P.B⟩

inductive ValidatorOpError where
  | belowMinStake
  | invalidProof
  deriving DecidableEq

def RegisterValidatorOp.validateStandalone (op : RegisterValidatorOp P) :
    Except ValidatorOpError Unit := do
  if op.value < minValidatorStake then throw .belowMinStake
  let msg := stakeRegistrationMessage op.commitment op.value
  if !op.proof.verify msg (stakeKey op.commitment op.value) then throw .invalidProof

-- `validators[pos] = entry` at the first entry with the commitment, `push` when there is none
def upsertValidator (validators : List (Validator P)) (entry : Validator P) :
    List (Validator P) :=
  match validators.findIdx? fun v => v.commitment == entry.commitment with
  | some pos => validators.set pos entry
  | none => validators ++ [entry]

-- a new validator needs a free seat, a known one a different value
def admitsValidator (validators : List (Validator P)) (op : RegisterValidatorOp P) : Bool :=
  match validators.find? fun v => v.commitment == op.commitment with
  | none => validators.length < maxActiveValidators
  | some v => v.value != op.value

/-- `try_register_validator`. The source edits the list in place and returns a flag; here a refused
registration is `none`. -/
def tryRegisterValidator (validators : List (Validator P)) (utxos : Finset (Commitment P))
    (op : RegisterValidatorOp P) : Option (List (Validator P)) := do
  ensure op.validateStandalone.isOk
  ensure (op.commitment ∈ utxos)
  ensure (admitsValidator validators op)
  return upsertValidator validators ⟨op.commitment, op.value, op.proof⟩

/-- `BlockPruneMeta` of `compaction.rs`. -/
structure BlockPruneMeta where
  prunedInputs : UInt32
  prunedOutputs : UInt32
  deriving DecidableEq

/-- The key of `collection_mint_counts`: collection, phase, compressed owner. -/
abbrev MintKey := String × UInt32 × Bytes32

@[ext] structure ChainState (P : Crypto) where
  utxos : Finset (Commitment P)
  kernels : List (TxKernel P)
  kernelExcesses : Finset (Commitment P)
  currentHeight : UInt64
  lastBlockHash : Bytes32
  activeValidators : List (Validator P)
  blocks : KeyedMap Bytes32 (Block P)
  validatorSnapshots : KeyedMap UInt64 (List (Validator P))
  nameRegistry : KeyedMap String (NameRecord P)
  transferSnapshots : KeyedMap UInt64 (List (String × NameRecord P))
  assetRegistry : KeyedMap String (AssetRecord P)
  assetTransferSnapshots : KeyedMap UInt64 (List (String × AssetRecord P))
  collectionRegistry : KeyedMap String (CollectionRecord P)
  collectionMintCounts : KeyedMap MintKey UInt32
  pruneMeta : KeyedMap Bytes32 BlockPruneMeta

/-- `ChainState::new`. -/
def ChainState.new : ChainState P where
  utxos := ∅
  kernels := []
  kernelExcesses := ∅
  currentHeight := 0
  lastBlockHash := zeroHash
  activeValidators := []
  blocks := ∅
  validatorSnapshots := ∅
  nameRegistry := ∅
  transferSnapshots := ∅
  assetRegistry := ∅
  assetTransferSnapshots := ∅
  collectionRegistry := ∅
  collectionMintCounts := ∅
  pruneMeta := ∅

/-- What changed when a block was applied. -/
structure AppliedDelta (P : Crypto) where
  block : Block P
  spentCommitments : List (Commitment P)
  newOutputs : List (Output P)
  newKernels : List (TxKernel P)
  validatorSnapshot : UInt64 × List (Validator P)
  activeValidatorsAfter : List (Validator P)
  newNames : List (String × NameRecord P)
  transferredNames : List (String × NameRecord P)
  newAssets : List (String × AssetRecord P)
  transferredAssets : List (String × AssetRecord P)
  newCollections : List (String × CollectionRecord P)
  collectionMintsThisBlock : List MintKey
  height : UInt64
  tipHash : Bytes32

/-- What changed when the tip was rolled back. -/
structure RollbackDelta (P : Crypto) where
  unConsumedOutputs : List (Commitment P)
  restoredInputs : List (Commitment P)
  removedKernelExcesses : List (Commitment P)
  activeValidatorsAfter : List (Validator P)
  removedNames : List String
  removedAssets : List String
  removedCollections : List String
  newHeight : UInt64
  newTip : Bytes32

inductive ApplyResult (P : Crypto) where
  | rejected
  | linear (delta : AppliedDelta P)
  | reorg (rollbacks : List (RollbackDelta P)) (applies : List (AppliedDelta P))

def ApplyResult.isApplied : ApplyResult P → Bool
  | .rejected => false
  | _ => true

end Haze
