import Haze.P2p.Session
import Haze.Proposer.Filters
import Haze.Proposer.Body

/-!
# Pending items after a block was applied (`p2p/src/server.rs`, `proposer.rs`)

A node applies blocks on three paths: its own proposal, a `NewBlock` and the loop over a
`BlocksBatch`. The last two clear the mempool after each block that `apply_block` takes; the first
does not. What is cleared follows the delivered block only, and each queue is held against one kind of
spend: transactions against the body, name registrations against the fee payments of registrations,
mints against those of mints.
-/

namespace Haze

variable {P : Crypto}

/-- The blocks that joined the active chain. -/
def ApplyResult.blocks : ApplyResult P → List (Block P)
  | .rejected => []
  | .linear delta => [delta.block]
  | .reorg _ applies => applies.map AppliedDelta.block

namespace Block

variable (b : Block P)

/-- `spent` of the handlers: what the registrations' fee payments spend. -/
def nameSpent : List (Commitment P) := b.nameOps.flatMap fun op => op.feePayment.spent

/-- `mint_spent` of the handlers. -/
def mintSpent : List (Commitment P) := b.mintOps.flatMap fun op => op.feePayment.spent

end Block

namespace Mempool

/-- What both handlers do with the mempool once a block was applied. -/
def clearAfter (m : Mempool P) (b : Block P) : Mempool P :=
  let registeredNames := b.nameOps.map RegisterNameOp.name
  let touchedNames := registeredNames ++ b.transferOps.map TransferNameOp.name
  let mintedAssets := b.mintOps.map MintAssetOp.assetId
  let touchedAssets := mintedAssets ++ b.transferAssetOps.map TransferAssetOp.assetId
  let m := m.clearSpent b.body
  let m := m.clearStaleNameOps registeredNames b.nameSpent
  let m := m.clearStaleTransferOps touchedNames
  let m := m.clearStaleMintOps mintedAssets b.mintSpent
  let m := m.clearStaleTransferAssetOps touchedAssets
  let m := m.clearStaleLaunchCollectionOps
    (b.launchCollectionOps.map LaunchCollectionOp.collectionId)
  m.clearStaleValidatorOps (b.validatorOps.map RegisterValidatorOp.commitment)

end Mempool

/-! ## The three paths

Blocks reach a node by a round of its own proposer, alone, or in the batches of a sync. Each path clears the
mempool after a block in its own way. -/

/-- A node with one peer connection. -/
structure Node (P : Crypto) where
  connection : Connection P
  mempool : Mempool P

/-- What makes a node apply blocks. -/
inductive Arrival (P : Crypto) where
  | proposal (e : Proposer.Env P)
  | newBlock (b : Block P)
  | blocksBatch (blocks : List (Block P))

/-- A block that `apply_block` took, and the blocks that joined the chain with it. -/
structure Taken (P : Crypto) where
  block : Block P
  joined : List (Block P)

namespace Node

variable (n : Node P)

/-- `apply_block` and, if it took the block, the clearing. -/
def receive (b : Block P) : Node P × List (Taken P) :=
  let (chain, result) := n.connection.chain.applyBlock b
  if result.isApplied then
    (⟨{ n.connection with chain := chain }, n.mempool.clearAfter b⟩, [⟨b, result.blocks⟩])
  else (⟨{ n.connection with chain := chain }, n.mempool⟩, [])

/-- One iteration of the loop over a batch: the connection is moved by `Connection.syncBlock`, and
the mempool is cleared where that applies the block. -/
def syncBlock (b : Block P) : Node P × List (Taken P) :=
  let connection := (n.connection.syncBlock b).1
  if n.connection.session.aggregateMode then (⟨connection, n.mempool⟩, [])
  else (⟨connection, (n.receive b).1.mempool⟩, (n.receive b).2)

def syncBlocks : List (Block P) → Node P → Node P × List (Taken P)
  | [], n => (n, [])
  | b :: bs, n =>
      let (n', taken) := n.syncBlock b
      if (n.connection.syncBlock b).2 then
        ((syncBlocks bs n').1, taken ++ (syncBlocks bs n').2)
      else (n', taken)

/-- One pass of the proposer's loop: nothing is cleared. -/
def propose (e : Proposer.Env P) : Node P × List (Taken P) :=
  let ((chain, mempool), proposed) := Proposer.round e n.connection.chain n.mempool
  (⟨{ n.connection with chain := chain }, mempool⟩,
    (proposed.map fun r => if r.2.isApplied then [⟨r.1, r.2.blocks⟩] else []).getD [])

/-- The node after an arrival, and the blocks it took on the way. -/
def arrive : Arrival P → Node P × List (Taken P)
  | .proposal e => n.propose e
  | .newBlock b => n.receive b
  | .blocksBatch blocks => n.syncBlocks blocks

theorem mempool_receive (b : Block P) :
    (n.receive b).1.mempool = ((n.receive b).2.map Taken.block).foldl Mempool.clearAfter n.mempool := by
  unfold receive
  dsimp only
  split <;> rfl

theorem mempool_syncBlock (b : Block P) :
    (n.syncBlock b).1.mempool =
      ((n.syncBlock b).2.map Taken.block).foldl Mempool.clearAfter n.mempool := by
  unfold syncBlock
  split
  · rfl
  · exact n.mempool_receive b

theorem mempool_syncBlocks (bs : List (Block P)) :
    (syncBlocks bs n).1.mempool =
      ((syncBlocks bs n).2.map Taken.block).foldl Mempool.clearAfter n.mempool := by
  induction bs generalizing n with
  | nil => rfl
  | cons b bs ih =>
      unfold syncBlocks
      dsimp only
      split
      · rw [ih, mempool_syncBlock, List.map_append, List.foldl_append]
      · exact n.mempool_syncBlock b

end Node

/-! ## The blocks that join the chain

A reorganization brings several blocks at once, and the handlers clear after the last of them only. What has
joined the chain is the branch up to that block. -/

/-- The branch that ends in `b`, from the tip of `s` or from the fork point. -/
def ChainState.branch (s : ChainState P) (b : Block P) : List (Block P) :=
  if s.isLinear b then [b] else (((s.storeBlock b).findReorgPath b).map Prod.snd).getD []

theorem ChainState.blocks_of_applyAll {fork : List (Block P)} {s s' : ChainState P}
    {deltas : List (AppliedDelta P)} (h : applyAll fork s = some (s', deltas)) :
    deltas.map AppliedDelta.block = fork := by
  induction fork generalizing s s' deltas with
  | nil =>
      cases h
      rfl
  | cons b fork ih =>
      simp only [applyAll, Option.bind_eq_bind, Option.bind_eq_some_iff, Option.pure_def,
        Option.some.injEq] at h
      obtain ⟨⟨s₁, delta⟩, hlinear, ⟨s₂, rest⟩, hrest, heq⟩ := h
      obtain ⟨c, hcheck, hcommit⟩ := applyLinearBlock_eq_some_iff.mp hlinear
      obtain ⟨rfl, rfl⟩ := Prod.mk.inj heq
      obtain rfl : (s.commitBlock b c).2 = delta := congrArg Prod.snd hcommit
      rw [List.map_cons, ih hrest]
      rfl

/-- What `apply_block` reports as applied is the branch of the block it was given. -/
theorem ChainState.blocks_applyBlock {s : ChainState P} {b : Block P}
    (h : (s.applyBlock b).2.isApplied = true) : (s.applyBlock b).2.blocks = s.branch b := by
  have houtcome := outcome_applyBlock s b
  generalize s.applyBlock b = r at houtcome h ⊢
  cases houtcome with
  | invalid _ => cases h
  | refused _ => cases h
  | linear hlin hlinear =>
      obtain ⟨c, hcheck, hcommit⟩ := applyLinearBlock_eq_some_iff.mp hlinear
      obtain rfl := congrArg Prod.snd hcommit
      simp only [branch, hlin, if_true]
      rfl
  | reorg hheight hplan hpath hroll happly =>
      have hlin : s.isLinear b = false := by
        simp only [reorgOf, Option.bind_eq_bind, Option.bind_eq_some_iff, Checked.ensure_eq_some] at hplan
        obtain ⟨_, hguard, -⟩ := hplan
        simp_all
      simp only [branch, hlin, hpath]
      exact blocks_of_applyAll happly

/-! ## Freshness

Stale is what spends a coin that a joined block has spent. The queues are cleared by other criteria than
that, which is why an item can stay. -/

/-- A transaction that spends a coin one of the blocks spends, in its body or in a fee payment. -/
def SpentBy (blocks : List (Block P)) (tx : Transaction P) : Prop :=
  ∃ b ∈ blocks, ∃ c ∈ tx.spent, c ∈ b.consumed

instance (blocks : List (Block P)) (tx : Transaction P) : Decidable (SpentBy blocks tx) :=
  inferInstanceAs (Decidable (∃ b ∈ blocks, ∃ c ∈ tx.spent, c ∈ b.consumed))

/-- Nothing pending spends what the blocks have spent. -/
structure Fresh (blocks : List (Block P)) (m : Mempool P) : Prop where
  txs : ∀ tx ∈ m.pendingTxs, ¬SpentBy blocks tx
  nameOps : ∀ op ∈ m.pendingNameOps, ¬SpentBy blocks op.feePayment
  mintOps : ∀ op ∈ m.pendingMintOps, ¬SpentBy blocks op.feePayment

/-- Every item that the blocks have made stale is hit by the rule of its own queue: a transaction
spends what the body of a cleared block spends; a registration takes a name that a cleared block
registers, or spends what a registration of it spends; a mint likewise. -/
structure Swept (blocks cleared : List (Block P)) (m : Mempool P) : Prop where
  txs : ∀ tx ∈ m.pendingTxs, SpentBy blocks tx →
    ∃ b ∈ cleared, ∃ c ∈ tx.spent, c ∈ b.body.spent
  nameOps : ∀ op ∈ m.pendingNameOps, SpentBy blocks op.feePayment →
    ∃ b ∈ cleared, op.name ∈ b.nameOps.map RegisterNameOp.name ∨
      ∃ c ∈ op.feePayment.spent, c ∈ b.nameSpent
  mintOps : ∀ op ∈ m.pendingMintOps, SpentBy blocks op.feePayment →
    ∃ b ∈ cleared, op.assetId ∈ b.mintOps.map MintAssetOp.assetId ∨
      ∃ c ∈ op.feePayment.spent, c ∈ b.mintSpent

namespace Mempool

variable {m : Mempool P} {spent : List (Commitment P)} {tx : Transaction P}

theorem untouched_eq_false_iff : untouched spent tx = false ↔ ∃ c ∈ tx.spent, c ∈ spent := by
  simp [untouched, Transaction.spent]

theorem mem_pendingTxs_clearAfter (m : Mempool P) (b : Block P) (tx : Transaction P) :
    tx ∈ (m.clearAfter b).pendingTxs ↔
      tx ∈ m.pendingTxs ∧ ¬∃ c ∈ tx.spent, c ∈ b.body.spent := by
  simp only [← untouched_eq_false_iff, Bool.not_eq_false]
  exact List.mem_filter

theorem mem_pendingNameOps_clearAfter (m : Mempool P) (b : Block P) (op : RegisterNameOp P) :
    op ∈ (m.clearAfter b).pendingNameOps ↔
      op ∈ m.pendingNameOps ∧ ¬(op.name ∈ b.nameOps.map RegisterNameOp.name ∨
        ∃ c ∈ op.feePayment.spent, c ∈ b.nameSpent) := by
  simp only [← untouched_eq_false_iff, not_or, Bool.not_eq_false]
  refine List.mem_filter.trans ?_
  rw [Bool.and_eq_true, decide_eq_true_iff]
  exact Iff.rfl

theorem mem_pendingMintOps_clearAfter (m : Mempool P) (b : Block P) (op : MintAssetOp P) :
    op ∈ (m.clearAfter b).pendingMintOps ↔
      op ∈ m.pendingMintOps ∧ ¬(op.assetId ∈ b.mintOps.map MintAssetOp.assetId ∨
        ∃ c ∈ op.feePayment.spent, c ∈ b.mintSpent) := by
  simp only [← untouched_eq_false_iff, not_or, Bool.not_eq_false]
  refine List.mem_filter.trans ?_
  rw [Bool.and_eq_true, decide_eq_true_iff]
  exact Iff.rfl

/-- One queue through a loop that removes what `hit` of some element hits. -/
theorem mem_foldl_clear {α β : Type} {queue : Mempool P → List α} {f : Mempool P → β → Mempool P}
    {hit : β → α → Prop} (hf : ∀ m b x, x ∈ queue (f m b) ↔ x ∈ queue m ∧ ¬hit b x) (bs : List β)
    (m : Mempool P) (x : α) :
    x ∈ queue (bs.foldl f m) ↔ x ∈ queue m ∧ ¬∃ b ∈ bs, hit b x := by
  induction bs generalizing m with
  | nil => simp
  | cons b bs ih =>
      rw [List.foldl_cons, ih, hf]
      simp only [List.mem_cons, exists_eq_or_imp, not_or, and_assoc]

/-- Clearing leaves a fresh pool exactly when the rules hit all that is stale. -/
theorem fresh_clear_iff (blocks cleared : List (Block P)) :
    Fresh blocks (cleared.foldl clearAfter m) ↔ Swept blocks cleared m := by
  have htxs := mem_foldl_clear mem_pendingTxs_clearAfter cleared m
  have hnames := mem_foldl_clear mem_pendingNameOps_clearAfter cleared m
  have hmints := mem_foldl_clear mem_pendingMintOps_clearAfter cleared m
  constructor
  · intro h
    constructor
    · intro tx htx hspent
      by_contra hmiss
      exact h.txs tx ((htxs tx).mpr ⟨htx, hmiss⟩) hspent
    · intro op hop hspent
      by_contra hmiss
      exact h.nameOps op ((hnames op).mpr ⟨hop, hmiss⟩) hspent
    · intro op hop hspent
      by_contra hmiss
      exact h.mintOps op ((hmints op).mpr ⟨hop, hmiss⟩) hspent
  · intro h
    constructor
    · intro tx htx hspent
      obtain ⟨hin, hmiss⟩ := (htxs tx).mp htx
      exact hmiss (h.txs tx hin hspent)
    · intro op hop hspent
      obtain ⟨hin, hmiss⟩ := (hnames op).mp hop
      exact hmiss (h.nameOps op hin hspent)
    · intro op hop hspent
      obtain ⟨hin, hmiss⟩ := (hmints op).mp hop
      exact hmiss (h.mintOps op hin hspent)

end Mempool

/-! ## What a proposal leaves

After a round the queues hold what did not fit into the block. None of it is compared with the block by the
proposer. -/

namespace Proposer

variable (e : Env P) (s : ChainState P) (m : Mempool P)

/-- What the block of a round spends: what the selected transactions spend more often than they
create it, and the fee inputs of the registrations and mints that pass the filters. -/
def Spends (c : Commitment P) : Prop :=
  (m.selectedTxs.flatMap Transaction.created).count c <
      (m.selectedTxs.flatMap Transaction.spent).count c ∨
    (∃ op ∈ (keptNames s (drain m).1).nameOps, c ∈ op.feePayment.spent) ∨
    ∃ op ∈ (mintsAfter e s (drain m).1 (drain m).1.mintOps).mintOps, c ∈ op.feePayment.spent

/-- No transaction, registration or mint beyond the block's caps spends what the block spends. -/
structure NothingStale : Prop where
  txs : ∀ tx ∈ (Queue.byFee txFee m.pendingTxs).drop maxTxsPerBlock,
    ∀ c ∈ tx.spent, ¬Spends e s m c
  nameOps : ∀ op ∈ (Queue.byFee nameOpFee m.pendingNameOps).drop maxNameOpsPerBlock,
    ∀ c ∈ op.feePayment.spent, ¬Spends e s m c
  mintOps : ∀ op ∈ (Queue.byFee mintOpFee m.pendingMintOps).drop maxMintOpsPerBlock,
    ∀ c ∈ op.feePayment.spent, ¬Spends e s m c

theorem mem_consumed_assembleBlock (validator : Validator P) (c : Commitment P) :
    c ∈ (assembleBlock e s (drain m).1 validator).consumed ↔ Spends e s m c := by
  have hbody : (assembleBlock e s (drain m).1 validator).body.spent =
      (aggregateAndCutThrough m.selectedTxs).spent := by
    rw [← drain_tx]
    rfl
  have hnames : (assembleBlock e s (drain m).1 validator).nameOps =
      (keptNames s (drain m).1).nameOps := rfl
  have hmints : (assembleBlock e s (drain m).1 validator).mintOps =
      (mintsAfter e s (drain m).1 (drain m).1.mintOps).mintOps := rfl
  simp only [Block.consumed, Block.transactions, Block.payments, List.flatMap_cons,
    List.flatMap_append, List.mem_append, List.mem_flatMap, List.mem_map, exists_exists_and_eq_and,
    hbody, hnames, hmints, CutThrough.mem_spent_iff, Spends]

theorem fresh_drain_iff (validator : Validator P) :
    Fresh [assembleBlock e s (drain m).1 validator] (drain m).2 ↔ NothingStale e s m := by
  -- what the one block of the round consumes is what `Spends` says
  have hspent : ∀ tx : Transaction P,
      ¬SpentBy [assembleBlock e s (drain m).1 validator] tx ↔ ∀ c ∈ tx.spent, ¬Spends e s m c := by
    intro tx
    simp only [SpentBy, List.mem_singleton, exists_eq_left, not_exists, not_and,
      mem_consumed_assembleBlock]
  have htxs : (drain m).2.pendingTxs = (Queue.byFee txFee m.pendingTxs).drop maxTxsPerBlock := by
    rw [drain_eq]
  have hnames : (drain m).2.pendingNameOps =
      (Queue.byFee nameOpFee m.pendingNameOps).drop maxNameOpsPerBlock := by
    rw [drain_eq]
  have hmints : (drain m).2.pendingMintOps =
      (Queue.byFee mintOpFee m.pendingMintOps).drop maxMintOpsPerBlock := by
    rw [drain_eq]
  constructor
  · intro h
    constructor
    · intro tx htx
      exact (hspent tx).mp (h.txs tx (htxs ▸ htx))
    · intro op hop
      exact (hspent _).mp (h.nameOps op (hnames ▸ hop))
    · intro op hop
      exact (hspent _).mp (h.mintOps op (hmints ▸ hop))
  · intro h
    constructor
    · intro tx htx
      exact (hspent tx).mpr (h.txs tx (htxs ▸ htx))
    · intro op hop
      exact (hspent _).mpr (h.nameOps op (hnames ▸ hop))
    · intro op hop
      exact (hspent _).mpr (h.mintOps op (hmints ▸ hop))

end Proposer

/-! ## The three paths together

One statement for the three paths: what was taken along the way, and what then has to hold of the queues. -/

namespace Connection

/-- What `apply_block` takes of one block of a batch. -/
def takes (c : Connection P) (b : Block P) : List (Taken P) :=
  if !c.session.aggregateMode && (c.chain.applyBlock b).2.isApplied then [⟨b, c.chain.branch b⟩]
  else []

/-- What it takes of a batch. -/
def takesAll : List (Block P) → Connection P → List (Taken P)
  | [], _ => []
  | b :: bs, c => c.takes b ++ if (c.syncBlock b).2 then takesAll bs (c.syncBlock b).1 else []

end Connection

namespace Node

variable {n : Node P} {a : Arrival P}

theorem receive_snd (b : Block P) :
    (n.receive b).2 = if (n.connection.chain.applyBlock b).2.isApplied then
      [⟨b, n.connection.chain.branch b⟩] else [] := by
  unfold receive
  dsimp only
  split
  next happlied => rw [ChainState.blocks_applyBlock happlied]
  next => rfl

theorem syncBlock_snd (b : Block P) : (n.syncBlock b).2 = n.connection.takes b := by
  unfold syncBlock Connection.takes
  split
  next hmode => simp [hmode]
  next hmode => simp [hmode, receive_snd]

theorem syncBlock_connection (b : Block P) :
    (n.syncBlock b).1.connection = (n.connection.syncBlock b).1 := by
  unfold syncBlock
  split <;> rfl

theorem syncBlocks_snd (bs : List (Block P)) :
    (syncBlocks bs n).2 = n.connection.takesAll bs := by
  induction bs generalizing n with
  | nil => rfl
  | cons b bs ih =>
      unfold syncBlocks Connection.takesAll
      dsimp only
      split
      · rw [ih, syncBlock_snd, syncBlock_connection]
      · rw [syncBlock_snd, List.append_nil]

/-- A proposal extends the tip: what joins the chain is the proposed block. -/
theorem branch_of_proposal {s : ChainState P} {e : Proposer.Env P} {d : Proposer.Drained P}
    {validator : Validator P}
    (h : (s.applyBlock (Proposer.assembleBlock e s d validator)).2.isApplied = true) :
    s.branch (Proposer.assembleBlock e s d validator) = [Proposer.assembleBlock e s d validator] := by
  have hlin : s.isLinear (Proposer.assembleBlock e s d validator) = true := by
    have houtcome := ChainState.outcome_applyBlock s (Proposer.assembleBlock e s d validator)
    generalize s.applyBlock (Proposer.assembleBlock e s d validator) = r at houtcome h
    cases houtcome with
    | invalid _ => cases h
    | refused _ => cases h
    | linear hlin _ => exact hlin
    | reorg hheight _ _ _ _ =>
        -- a height above the tip's has not wrapped
        have hgt : s.currentHeight < s.currentHeight + 1 := hheight
        apply Proposer.isLinear_assembleBlock
        show (s.currentHeight + 1).toNat = s.currentHeight.toNat + 1
        rw [UInt64.lt_iff_toNat_lt] at hgt
        rw [UInt64.toNat_add] at hgt ⊢
        have hlt := s.currentHeight.toNat_lt
        simp only [UInt64.reduceToNat] at hgt ⊢
        omega
  rw [ChainState.branch, if_pos hlin]

/-- A proposal that applies its block has drained the pool and cleared nothing. -/
theorem propose_eq {e : Proposer.Env P} (h : (n.propose e).2 ≠ []) :
    ∃ validator, (n.propose e).1.mempool = (Proposer.drain n.mempool).2 ∧
      (n.propose e).2.flatMap Taken.joined =
        [Proposer.assembleBlock e n.connection.chain (Proposer.drain n.mempool).1 validator] := by
  unfold propose Proposer.round at h ⊢
  cases hval : Proposer.myValidator e n.connection.chain with
  | none => simp [hval] at h
  | some validator =>
      cases hturn : Proposer.eligible e n.connection.chain validator with
      | false => simp [hval, hturn] at h
      | true =>
          simp only [hval, hturn, Bool.not_true, Bool.false_eq_true, if_false, Option.map_some,
            Option.getD_some, ne_eq, ite_eq_right_iff, List.cons_ne_nil, imp_false, not_not] at h
          refine ⟨validator, by simp [hturn], ?_⟩
          simp [hturn, h, ChainState.blocks_applyBlock h, branch_of_proposal h]

/-- The condition on each path. -/
def Sweeps (n : Node P) : Arrival P → Prop
  | .proposal e => Proposer.NothingStale e n.connection.chain n.mempool
  | .newBlock b => Swept (n.connection.chain.branch b) [b] n.mempool
  | .blocksBatch bs => Swept ((n.connection.takesAll bs).flatMap Taken.joined)
      ((n.connection.takesAll bs).map Taken.block) n.mempool

/-- **Freshness after an arrival.** A node that has applied a block holds nothing that the new blocks
of its chain have made stale exactly when its rules for clearing hit all of it. -/
theorem fresh_arrive_iff (h : (n.arrive a).2 ≠ []) :
    Fresh ((n.arrive a).2.flatMap Taken.joined) (n.arrive a).1.mempool ↔ n.Sweeps a := by
  cases a with
  | proposal e =>
      obtain ⟨validator, hpool, hjoined⟩ := propose_eq h
      show Fresh ((n.propose e).2.flatMap Taken.joined) (n.propose e).1.mempool ↔ _
      rw [hpool, hjoined]
      exact Proposer.fresh_drain_iff e n.connection.chain n.mempool validator
  | newBlock b =>
      show Fresh ((n.receive b).2.flatMap Taken.joined) (n.receive b).1.mempool ↔ _
      have happlied : (n.connection.chain.applyBlock b).2.isApplied = true := by
        by_contra hnot
        exact h (by simp [arrive, receive_snd, hnot])
      rw [mempool_receive, Mempool.fresh_clear_iff]
      simp [receive_snd, happlied, Sweeps]
  | blocksBatch bs =>
      show Fresh ((syncBlocks bs n).2.flatMap Taken.joined) (syncBlocks bs n).1.mempool ↔ _
      rw [mempool_syncBlocks, Mempool.fresh_clear_iff, syncBlocks_snd]
      rfl

end Node

namespace Devnet

-- a node on genesis whose mempool has seen `calls`
def nodeWith (calls : List (Mempool.PoolCall crypto)) : Node crypto :=
  ⟨⟨ChainState.deliver [genesis], .idle⟩, Mempool.run serializedSize calls⟩

-- the block of a proposer that has one payment from the genesis output
def spendingBlock : Block crypto :=
  Proposer.assembleBlock env (ChainState.deliver [genesis])
    (drained [.addTransaction (payment (genesisTotalMinted - 1_000_000) 7 8 5)]) genesisValidator

/-- A rival payment of the coin that the block spends is cleared. -/
theorem rival_cleared :
    let n := nodeWith [.addTransaction (payment (genesisTotalMinted - 1_000_000) 7 9 5)]
    n.mempool.pendingTxs.length = 1 ∧
      Fresh ((n.arrive (.newBlock spendingBlock)).2.flatMap Taken.joined)
        (n.arrive (.newBlock spendingBlock)).1.mempool := by
  intro n
  have hrun : n.mempool.pendingTxs.length = 1 ∧ (n.arrive (.newBlock spendingBlock)).2 ≠ [] ∧
      (∀ tx ∈ n.mempool.pendingTxs, ∃ b ∈ [spendingBlock], ∃ c ∈ tx.spent, c ∈ b.body.spent) ∧
      n.mempool.pendingNameOps.length = 0 ∧ n.mempool.pendingMintOps.length = 0 := by
    decide +kernel
  obtain ⟨hpending, harrived, htxs, hnames, hmints⟩ := hrun
  refine ⟨hpending, (Node.fresh_arrive_iff harrived).mpr ?_⟩
  refine ⟨fun tx htx _ => htxs tx htx, fun op hop => ?_, fun op hop => ?_⟩
  · rw [List.length_eq_zero_iff.mp hnames] at hop
    cases hop
  · rw [List.length_eq_zero_iff.mp hmints] at hop
    cases hop

/-- A registration that pays with the coin that the block's body spends stays pending. -/
theorem registration_stays :
    let n := nodeWith
      [.addNameOp (nameOp "alice" 3 (payment (genesisTotalMinted - 1_000_000) 7 9 100))]
    (n.arrive (.newBlock spendingBlock)).2 ≠ [] ∧
      ¬Fresh ((n.arrive (.newBlock spendingBlock)).2.flatMap Taken.joined)
        (n.arrive (.newBlock spendingBlock)).1.mempool := by
  intro n
  have hrun : (n.arrive (.newBlock spendingBlock)).2 ≠ [] ∧
      ∃ op ∈ (n.arrive (.newBlock spendingBlock)).1.mempool.pendingNameOps,
        SpentBy ((n.arrive (.newBlock spendingBlock)).2.flatMap Taken.joined) op.feePayment := by
    decide +kernel
  obtain ⟨harrived, op, hop, hspent⟩ := hrun
  exact ⟨harrived, fun hfresh => hfresh.nameOps op hop hspent⟩

end Devnet

end Haze
