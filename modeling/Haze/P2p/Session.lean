import Haze.Chain.Aggregate
import Haze.Chain.Range

/-!
# The sync side of a peer connection (`p2p/src/server.rs`, `p2p/src/message.rs`)

`handle_peer_connection` reads one message after another from a peer. The chain is shared with the
rest of the node; four local variables belong to the connection and carry a sync that has fallen back
to aggregate validation from one `BlocksBatch` to the next (`Session`).

A message handler is a function from the chain and the session to their new values and the messages
written back to the peer. Pending transactions and operations, peer discovery, listings and allowlists
do not touch the chain or the session and are one message here, `gossip`; what a handler writes to
other peers is left out. `Haze.P2p.Freshness` adds the mempool to the two arms that apply blocks.
-/

namespace Haze

variable {P : Crypto}

/-- `SYNC_BATCH_SIZE`. -/
def syncBatchSize : ℕ := 256

inductive P2pMessage (P : Crypto) where
  | handshake (listenAddr : String)
  | newBlock (block : Block P)
  | chainInfo (height : UInt64) (tipHash : Bytes32)
  | getBlocks (fromHeight : UInt64)
  | blocksBatch (blocks : List (Block P)) (hasMore : Bool)
  | prunedRange (earliestFullHeight : UInt64)
  | getUtxoSnapshot
  /-- The `Vec` is collected from a set and into a set: its order does not matter. -/
  | utxoSnapshot (utxos : Multiset (Commitment P)) (height : UInt64) (tipHash : Bytes32)
  | gossip

/-- The local variables of a connection that a sync uses. -/
structure Session (P : Crypto) where
  aggregateMode : Bool
  aggregateKernels : List (TxKernel P)
  aggregateRegistryFees : UInt64
  aggregatePrevHash : Option Bytes32

/-- What the variables start with, and are reset to. -/
def Session.idle : Session P := ⟨false, [], 0, none⟩

/-- `extend_aggregate`: the kernels of one block and the registry fees among them. -/
def extendAggregate (kernels : List (TxKernel P)) (registryFees : UInt64) (b : Block P) :
    List (TxKernel P) × UInt64 :=
  let extend := fun (acc : List (TxKernel P) × UInt64) (tx : Transaction P) =>
    (acc.1 ++ tx.kernels, acc.2 + tx.totalFee)
  let named := b.nameOps.foldl (fun acc op => extend acc op.feePayment)
    (kernels ++ b.body.kernels, registryFees)
  b.mintOps.foldl (fun acc op => extend acc op.feePayment) named

namespace Session

variable (σ : Session P) (b : Block P)

/-- Fold a block into the aggregate. -/
def fold : Session P :=
  let (kernels, fees) := extendAggregate σ.aggregateKernels σ.aggregateRegistryFees b
  { σ with
    aggregateKernels := kernels
    aggregateRegistryFees := fees
    aggregatePrevHash := some b.hash }

/-- Start an aggregate from what the local chain has. -/
def fallBack (chain : ChainState P) : Session P :=
  { aggregateMode := true
    aggregateKernels := chain.kernels
    aggregateRegistryFees := totalRegistryFeesBurned chain.blocks
    aggregatePrevHash := none }

/-- The structural check on a block that is folded. -/
def links : Bool :=
  σ.aggregatePrevHash.any (b.header.prevHash == ·) && b.header.chainId == chainId

end Session

/-- The node's chain and the state of one connection. -/
structure Connection (P : Crypto) where
  chain : ChainState P
  session : Session P

namespace Connection

variable (c : Connection P)

/-- One iteration of the loop over the blocks of a batch, and whether the loop goes on. -/
def syncBlock (b : Block P) : Connection P × Bool :=
  if c.session.aggregateMode then
    if c.session.links b then ({ c with session := c.session.fold b }, true)
    else ({ c with session := .idle }, false)
  else
    let applied := c.chain.applyBlock b
    if applied.2.isApplied then (⟨applied.1, c.session⟩, true)
    -- the block links up but fails its checks: taken for one that the peer has pruned
    else if b.header.prevHash == applied.1.lastBlockHash && b.header.chainId == chainId then
      (⟨applied.1, (Session.fallBack applied.1).fold b⟩, true)
    else (⟨applied.1, c.session⟩, false)

/-- The loop over a batch: where it ends, and `applied_count`. -/
def syncBlocks : List (Block P) → Connection P → Connection P × ℕ
  | [], c => (c, 0)
  | b :: bs, c =>
      match c.syncBlock b with
      | (c', true) => ((syncBlocks bs c').1, (syncBlocks bs c').2 + 1)
      | (c', false) => (c', 0)

/-- What is asked for after a batch. -/
def nextRequest (blocks : List (Block P)) (hasMore : Bool) (appliedCount : ℕ) : List (P2pMessage P) :=
  if hasMore && appliedCount == blocks.length then
    if c.session.aggregateMode then
      [.getBlocks ((blocks.getLast?.map fun b => b.height + 1).getD 1)]
    else
      [.getBlocks (c.chain.currentHeight + 1)]
  else if appliedCount == blocks.length && c.session.aggregateMode then
    [.getUtxoSnapshot]
  else
    []

/-- The check that decides on a snapshot. -/
def accepts (utxos : Multiset (Commitment P)) (height : UInt64) : Bool :=
  c.session.aggregateMode &&
    aggregateValidate utxos.toFinset c.session.aggregateKernels height c.session.aggregateRegistryFees

/-- The chain with a snapshot in place of its coins and its tip. -/
def adopt (chain : ChainState P) (utxos : Multiset (Commitment P)) (height : UInt64)
    (tipHash : Bytes32) : ChainState P :=
  { chain with
    utxos := utxos.toFinset
    currentHeight := height
    lastBlockHash := tipHash }

/-- One message from the peer: the connection afterwards and what is written back. -/
def handle : P2pMessage P → Connection P × List (P2pMessage P)
  | .handshake _ => (c, [.chainInfo c.chain.currentHeight c.chain.lastBlockHash, .gossip])
  | .newBlock b => ({ c with chain := (c.chain.applyBlock b).1 }, [])
  | .chainInfo height _ =>
      (c, if height > c.chain.currentHeight then [.getBlocks (c.chain.currentHeight + 1)] else [])
  | .getBlocks fromHeight =>
      let served := c.chain.getBlocksFrom fromHeight syncBatchSize
      (c, [.blocksBatch served.1 served.2])
  | .blocksBatch blocks hasMore =>
      let synced := syncBlocks blocks c
      (synced.1, synced.1.nextRequest blocks hasMore synced.2)
  | .getUtxoSnapshot =>
      (c, [.utxoSnapshot c.chain.utxos.val c.chain.currentHeight c.chain.lastBlockHash])
  | .utxoSnapshot utxos height tipHash =>
      if c.session.aggregateMode then
        if c.accepts utxos height then (⟨adopt c.chain utxos height tipHash, .idle⟩, [])
        else ({ c with session := .idle }, [])
      else (c, [])
  | .prunedRange _ => (c, [])
  | .gossip => (c, [])

section Accepts

variable {c : Connection P} {utxos : Multiset (Commitment P)} {height : UInt64}

theorem aggregateMode_of_accepts (h : c.accepts utxos height = true) :
    c.session.aggregateMode = true := by
  simp only [accepts, Bool.and_eq_true] at h
  exact h.1

/-- A snapshot that passes the check is adopted. -/
theorem chain_of_accepts (tipHash : Bytes32) (h : c.accepts utxos height = true) :
    (c.handle (.utxoSnapshot utxos height tipHash)).1.chain = adopt c.chain utxos height tipHash := by
  simp [handle, aggregateMode_of_accepts h, h]

end Accepts

end Connection

end Haze
