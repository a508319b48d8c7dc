import Haze.Chain.Candidates
import Haze.Chain.Reorg
import Mathlib.Data.List.Lex
import Mathlib.Order.Fin.Basic

/-!
# The database on disk (`storage.rs`)

A `sled` tree is an ordered map from bytes to bytes, and a value that was serialized is read back as
it was written; here each tree maps the keys it is used with to what the bytes stand for. A `Batch`
keeps the last operation for each key, which is what running its operations in order leaves.

`persist_applied` and `persist_rollback` write what a delta names and nothing else. `load_state` reads
the coins, the kernels, the snapshots and the tip from the trees, and rebuilds the registries and the
validators from the stored blocks of the active chain.
-/

namespace Haze

open Checked

variable {P : Crypto}

/-- The bytes of a key, as the tree compares them. -/
def keyBytes (key : Bytes32) : List (Fin 256) := key.toList.map UInt8.toFin

theorem keyBytes_injective : Function.Injective keyBytes := by
  intro key key' h
  apply List.Vector.eq
  exact List.map_injective_iff.mpr (fun _ _ hb => UInt8.toFin_inj.mp hb) h

instance : LinearOrder Bytes32 :=
  { PartialOrder.lift keyBytes keyBytes_injective with
    le_total := fun key key' => le_total (keyBytes key) (keyBytes key')
    toDecidableLE := fun key key' => inferInstanceAs (Decidable (keyBytes key ≤ keyBytes key'))
    toDecidableEq := inferInstanceAs (DecidableEq (List.Vector UInt8 32)) }

/-- `commitment_key`. -/
def commitmentKey (c : Commitment P) : Bytes32 := P.compress c.asPoint

/-- The six trees; `meta` holds two keys. -/
structure Storage (P : Crypto) where
  blocks : KeyedMap Bytes32 (Block P)
  /-- The output, or nothing where a rollback has put the coin back. -/
  utxos : KeyedMap Bytes32 (Option (Output P))
  kernels : KeyedMap Bytes32 (TxKernel P)
  validatorSnapshots : KeyedMap UInt64 (List (Validator P))
  pruneMeta : KeyedMap Bytes32 BlockPruneMeta
  height : Option UInt64
  tip : Option Bytes32

namespace Storage

/-- `open_at` on a path where there is nothing yet. -/
def empty : Storage P := ⟨∅, ∅, ∅, ∅, ∅, none, none⟩

variable (d : Storage P)

/-! ## Writing

What each delta writes, tree by tree. `persist_apply_result` writes the rollbacks of a reorganization before
its new blocks. -/

def persistApplied (delta : AppliedDelta P) : Storage P :=
  { d with
    blocks := d.blocks.insert delta.tipHash delta.block
    utxos := KeyedMap.insertAll
      (KeyedMap.eraseAll d.utxos (delta.spentCommitments.map commitmentKey))
      (delta.newOutputs.map fun o => (commitmentKey o.commitment, some o))
    kernels := KeyedMap.insertAll d.kernels
      (delta.newKernels.map fun k => (commitmentKey k.excess, k))
    validatorSnapshots :=
      d.validatorSnapshots.insert delta.validatorSnapshot.1 delta.validatorSnapshot.2
    height := some delta.height
    tip := some delta.tipHash }

def persistRollback (delta : RollbackDelta P) : Storage P :=
  { d with
    utxos := KeyedMap.insertAll
      (KeyedMap.eraseAll d.utxos (delta.unConsumedOutputs.map commitmentKey))
      (delta.restoredInputs.map fun c => (commitmentKey c, none))
    kernels := KeyedMap.eraseAll d.kernels (delta.removedKernelExcesses.map commitmentKey)
    height := some delta.newHeight
    tip := some delta.newTip }

/-- `persist_apply_result` of `p2p/src/server.rs`, with all writes succeeding. -/
def persistApplyResult : ApplyResult P → Storage P
  | .linear delta => d.persistApplied delta
  | .reorg rollbacks applies =>
      applies.foldl persistApplied (rollbacks.foldl persistRollback d)
  | .rejected => d

/-! ## Reading back

The functions that `load_state` calls. They run over blocks that have been accepted once and check nothing
again. -/

/-- The walk from the tip over `prev_hash`, newest block first. -/
def activeChainBlocks (blocks : KeyedMap Bytes32 (Block P)) : ℕ → Bytes32 → List (Block P)
  | 0, _ => []
  | fuel + 1, cursor =>
      if cursor = zeroHash then []
      else
        match blocks.lookup cursor with
        | none => []
        | some b => b :: if b.height = 0 then [] else activeChainBlocks blocks fuel b.header.prevHash

-- a transfer changes the record that the registry has at this point
def loadTransfer (names : KeyedMap String (NameRecord P)) (op : TransferNameOp P) :
    KeyedMap String (NameRecord P) :=
  match names.lookup op.name with
  | some existing => names.insert op.name (op.record existing)
  | none => names

def loadNames (names : KeyedMap String (NameRecord P)) (b : Block P) :
    KeyedMap String (NameRecord P) :=
  b.transferOps.foldl loadTransfer
    (b.nameOps.foldl (fun m op => m.insert op.name (op.record b.height)) names)

def loadTransferAsset (assets : KeyedMap String (AssetRecord P)) (op : TransferAssetOp P) :
    KeyedMap String (AssetRecord P) :=
  match assets.lookup op.assetId with
  | some existing => assets.insert op.assetId (op.record existing)
  | none => assets

def loadAssets (assets : KeyedMap String (AssetRecord P)) (b : Block P) :
    KeyedMap String (AssetRecord P) :=
  b.transferAssetOps.foldl loadTransferAsset
    (b.mintOps.foldl (fun m op => m.insert op.assetId (op.record b.height)) assets)

def loadCollections (collections : KeyedMap String (CollectionRecord P)) (b : Block P) :
    KeyedMap String (CollectionRecord P) :=
  b.launchCollectionOps.foldl (fun m op => m.insert op.collectionId (op.record b.height)) collections

def loadMintCounts (counts : KeyedMap MintKey UInt32) (b : Block P) : KeyedMap MintKey UInt32 :=
  (b.mintOps.filterMap MintAssetOp.countKey).foldl Counter.bump counts

/-- A registration that is refused is skipped here. -/
def loadValidatorOp (utxos : Finset (Commitment P)) (validators : List (Validator P))
    (op : RegisterValidatorOp P) : List (Validator P) :=
  (tryRegisterValidator validators utxos op).getD validators

/-- Registrations against the *final* coins, then the stakes that the body spends. -/
def loadValidators (utxos : Finset (Commitment P)) (validators : List (Validator P)) (b : Block P) :
    List (Validator P) :=
  let registered := b.validatorOps.foldl (loadValidatorOp utxos) validators
  if b.height > 0 then
    b.body.inputs.foldl (fun vs input => vs.filter fun v => v.commitment ≠ input.commitment) registered
  else registered

def loadState : ChainState P :=
  let utxos := Coins.create ∅ (d.utxos.sortedKeys.filterMap fun key =>
    Commitment.fromCompressedBytes key.toList)
  let kernels := d.kernels.sortedValues
  let lastBlockHash := d.tip.getD zeroHash
  let chain := (activeChainBlocks d.blocks (d.blocks.keys.card + 1) lastBlockHash).reverse
  { utxos := utxos
    kernels := kernels
    kernelExcesses := Coins.create ∅ (kernels.map TxKernel.excess)
    currentHeight := d.height.getD 0
    lastBlockHash := lastBlockHash
    activeValidators := chain.foldl (loadValidators utxos) []
    blocks := d.blocks
    validatorSnapshots := d.validatorSnapshots
    nameRegistry := chain.foldl loadNames ∅
    transferSnapshots := ∅
    assetRegistry := chain.foldl loadAssets ∅
    assetTransferSnapshots := ∅
    collectionRegistry := chain.foldl loadCollections ∅
    collectionMintCounts := chain.foldl loadMintCounts ∅
    pruneMeta := d.pruneMeta }

end Storage

end Haze
