import Haze.Proposer.Lanes

/-!
# How long an operation waits (`p2p/src/server.rs`, `core/src/proposer.rs`)

A node between its clients, its peers and its proposer: operations and transactions come in, blocks of
peers are applied and clear what they make stale, and now and then it is this node's turn to drain its
mempool into a block. An operation in a lane moves up by a block's worth in each turn, and leaves its lane
in two ways only.
-/

namespace Haze

open Checked

variable {P : Crypto}

/-! ## Runs of a node

A run of one node, with clients, peers and its own rounds in any order, and with syncs that move the chain
without the mempool. -/

/-- The chain of a node and its mempool. -/
structure Site (P : Crypto) where
  chain : ChainState P
  mempool : Mempool P

/-- What happens to them. -/
inductive SiteEvent (P : Crypto) where
  /-- An operation of a client or of a peer. -/
  | op (op : OpMessage P)
  | transaction (tx : Transaction P)
  /-- A pass of the proposer's loop. -/
  | round (e : Proposer.Env P)
  /-- A block of a peer; a batch is a run of them. -/
  | newBlock (b : Block P)
  /-- The chain alone moves: a snapshot is adopted, or a batch is folded in aggregate mode. -/
  | sync (chain : ChainState P)

namespace Site

variable (serializedSize : Transaction P → Option UInt64) (n : Site P)

def step : SiteEvent P → Site P
  | .op op => { n with mempool := (handleOp n.mempool op).1 }
  | .transaction tx => { n with mempool := (n.mempool.addTransaction serializedSize tx).getD n.mempool }
  | .round e =>
      let ((chain, mempool), _) := Proposer.round e n.chain n.mempool
      ⟨chain, mempool⟩
  | .newBlock b =>
      let (chain, result) := n.chain.applyBlock b
      ⟨chain, if result.isApplied then n.mempool.clearAfter b else n.mempool⟩
  | .sync chain => { n with chain := chain }

def run (events : List (SiteEvent P)) : Site P := events.foldl (step serializedSize) n

theorem run_concat (events : List (SiteEvent P)) (ev : SiteEvent P) :
    n.run serializedSize (events ++ [ev]) = (n.run serializedSize events).step serializedSize ev := by
  simp [run]

/-- The block that a round assembles when it is this node's turn, and what the chain makes of it. -/
def proposed : SiteEvent P → Option (Block P × ApplyResult P)
  | .round e => (Proposer.round e n.chain n.mempool).2
  | _ => none

theorem mempool_newBlock (b : Block P) : (n.step serializedSize (.newBlock b)).mempool =
    if (n.chain.applyBlock b).2.isApplied then n.mempool.clearAfter b else n.mempool := rfl

/-- How many rounds of a run were this node's turn. -/
def turns (events : List (SiteEvent P)) : ℕ :=
  Fifo.total (step serializedSize) (fun n ev => if (n.proposed ev).isSome then 1 else 0) n events

end Site

/-- How many stand before an operation in its lane. -/
def Lane.place (L : Lane P) (n : Site P) (op : L.Op) : ℕ :=
  Fifo.place L.key (L.pending n.mempool) (L.key op)

/-- The event `ev` at `n`, which leads to `n'`, decides about the operation. Either a round takes it: it is
among the first of its lane, as many as a block takes, and waits no longer afterwards. The round puts it into
its block exactly if there is a place for it, and the chain says what it asked for if it takes the block. Or
a block of a peer that has to do with the same name, asset, collection or stake is applied. -/
inductive Lane.Decides (L : Lane P) (n : Site P) (ev : SiteEvent P) (n' : Site P) (op : L.Op) : Prop
  | round {b : Block P} {result : ApplyResult P} (hproposed : n.proposed ev = some (b, result))
      (hfront : L.place n op < L.cap) (htaken : op ∉ L.pending n'.mempool)
      (hfits : op ∈ L.inBlock b ↔ L.fits n.chain n.mempool b op)
      (hwritten : result.isApplied = true → op ∈ L.inBlock b → L.written n.chain b n'.chain op)
  | newBlock {b : Block P} (hev : ev = .newBlock b) (happlied : (n.chain.applyBlock b).2.isApplied = true)
      (htouched : L.key op ∈ L.touched b)

section Runs

variable {serializedSize : Transaction P → Option UInt64} {n : Site P}

/-- Whatever happens, the mempool goes through a few of its calls. -/
theorem Site.exists_calls (n : Site P) (ev : SiteEvent P) :
    ∃ calls : List (Mempool.PoolCall P), (n.step serializedSize ev).mempool =
      calls.foldl (Mempool.call serializedSize) n.mempool := by
  cases ev with
  | op op =>
      have hcall : ∃ c, (n.mempool.addOp op).getD n.mempool = n.mempool.call serializedSize c := by
        cases op with
        | newNameOp op => exact ⟨.addNameOp op, rfl⟩
        | newTransferOp op => exact ⟨.addTransferOp op, rfl⟩
        | newMintOp op => exact ⟨.addMintOp op, rfl⟩
        | newTransferAssetOp op => exact ⟨.addTransferAssetOp op, rfl⟩
        | newLaunchCollectionOp op => exact ⟨.addLaunchCollectionOp op, rfl⟩
        | newValidatorOp op => exact ⟨.addValidatorOp op, rfl⟩
      obtain ⟨c, hc⟩ := hcall
      refine ⟨[c], ?_⟩
      show (handleOp n.mempool op).1 = n.mempool.call serializedSize c
      rw [← hc]
      unfold handleOp
      cases n.mempool.addOp op <;> rfl
  | transaction tx => exact ⟨[.addTransaction tx], rfl⟩
  | round e =>
      show ∃ calls : List (Mempool.PoolCall P), (Proposer.round e n.chain n.mempool).1.2 = _
      rcases Proposer.round_cases e n.chain n.mempool with hidle | ⟨validator, -, -, hround⟩
      · rw [hidle]
        exact ⟨[], rfl⟩
      · rw [hround]
        exact ⟨[.aggregate, .takeNameOps, .takeTransferOps, .takeLaunchCollectionOps, .takeMintOps,
          .takeTransferAssetOps, .takeValidatorOps], rfl⟩
  | newBlock b =>
      show ∃ calls : List (Mempool.PoolCall P),
        (if (n.chain.applyBlock b).2.isApplied then n.mempool.clearAfter b else n.mempool) = _
      split
      · exact ⟨[.clearSpent _, .clearStaleNameOps _ _, .clearStaleTransferOps _, .clearStaleMintOps _ _,
          .clearStaleTransferAssetOps _, .clearStaleLaunchCollectionOps _, .clearStaleValidatorOps _], rfl⟩
      · exact ⟨[], rfl⟩
  | sync chain => exact ⟨[], rfl⟩

/-- What the mempool is after any calls. -/
def Site.Sound (n : Site P) : Prop := n.mempool.Orderly ∧ n.mempool.Admitted

theorem Site.Sound.step (h : n.Sound) (ev : SiteEvent P) : (n.step serializedSize ev).Sound := by
  obtain ⟨calls, hcalls⟩ : ∃ calls, (n.step serializedSize ev).mempool =
      List.foldl (Mempool.call serializedSize) n.mempool calls := n.exists_calls ev
  rw [Sound, hcalls]
  exact foldl_induct (motive := fun m : Mempool P => m.Orderly ∧ m.Admitted) h
    (fun m c hm => ⟨hm.1.call serializedSize c, hm.2.call serializedSize c⟩) calls

/-- **One step.** An operation in a lane waits and has moved up by what the step has taken, or the step
decides about it. -/
theorem Lane.step {L : Lane P} (hL : L ∈ lanes P) (h : n.Sound) {op : L.Op}
    (hop : op ∈ L.pending n.mempool) (ev : SiteEvent P) :
    (op ∈ L.pending (n.step serializedSize ev).mempool ∧ L.place (n.step serializedSize ev) op +
        L.cap * (if (n.proposed ev).isSome then 1 else 0) ≤ L.place n op) ∨
      L.Decides n ev (n.step serializedSize ev) op := by
  have hmoves := moves_of_mem hL
  -- where nothing is taken, the queue may have become longer or thinner
  have hstays : ∀ {m : Mempool P}, op ∈ L.pending m →
      Fifo.place L.key (L.pending m) (L.key op) ≤ L.place n op →
        op ∈ L.pending m ∧ Fifo.place L.key (L.pending m) (L.key op) + L.cap * 0 ≤ L.place n op :=
    fun hmem hplace => ⟨hmem, hplace⟩
  cases ev with
  | op o =>
      refine .inl (hstays (m := (handleOp n.mempool o).1) ?_ ?_)
      all_goals
        rcases handleOp_cases n.mempool o with ⟨hadd, -⟩ | ⟨-, hsame⟩
      · obtain ⟨joined, hjoined⟩ := hmoves.added hadd
        rw [hjoined]
        exact List.mem_append_left _ hop
      · rw [hsame]
        exact hop
      · obtain ⟨joined, hjoined⟩ := hmoves.added hadd
        rw [hjoined, Fifo.place_append hop]
        exact Nat.le_refl _
      · rw [hsame]
        exact Nat.le_refl _
  | transaction tx =>
      refine .inl (hstays (m := (n.mempool.addTransaction serializedSize tx).getD n.mempool) ?_ ?_)
      · rw [hmoves.transaction]
        exact hop
      · rw [hmoves.transaction]
        exact Nat.le_refl _
  | sync chain => exact .inl (hstays hop (Nat.le_refl _))
  | newBlock b =>
      by_cases happlied : (n.chain.applyBlock b).2.isApplied = true
      · by_cases htouched : L.key op ∈ L.touched b
        · exact .inr (.newBlock rfl happlied htouched)
        · refine .inl ?_
          rw [Lane.place, Site.mempool_newBlock, if_pos happlied]
          refine hstays ?_ ?_
          · rw [hmoves.cleared]
            exact List.mem_filter.mpr ⟨hop, decide_eq_true htouched⟩
          · rw [hmoves.cleared]
            refine Fifo.place_filter_le fun y _ hkey => ?_
            rw [hkey]
            exact decide_eq_true htouched
      · refine .inl ?_
        rw [Lane.place, Site.mempool_newBlock, if_neg happlied]
        exact hstays hop (Nat.le_refl _)
  | round e =>
      rcases Proposer.round_cases e n.chain n.mempool with hidle | ⟨validator, -, -, hround⟩
      · refine .inl ?_
        simp only [Site.step, Site.proposed, Lane.place, hidle]
        exact hstays hop (Nat.le_refl _)
      · have hdrained := hmoves.drained n.mempool
        by_cases hrest : op ∈ (L.pending n.mempool).drop L.cap
        · refine .inl ?_
          simp only [Site.step, Site.proposed, Lane.place, hround, hdrained, Option.isSome_some, if_true,
            Nat.mul_one]
          exact ⟨hrest, Nat.le_of_eq (Fifo.place_drop (hmoves.distinct h.1) hrest)⟩
        · have hfront : op ∈ (L.pending n.mempool).take L.cap := by
            rw [← List.take_append_drop L.cap (L.pending n.mempool)] at hop
            exact (List.mem_append.mp hop).resolve_right hrest
          obtain ⟨hfits, hwritten⟩ := Proposer.judged_of_mem e n.chain validator hL h.1 h.2 hfront
          refine .inr (.round (congrArg Prod.snd hround) (Fifo.place_lt_of_mem_take hfront) ?_ hfits ?_)
          · simp only [Site.step, hround, hdrained]
            exact Fifo.notMem_drop_of_mem_take (hmoves.distinct h.1) hfront
          · simp only [Site.step, hround]
            exact hwritten

/-- **An operation in a lane is never overtaken.** Take a node whose mempool any calls have led to, and an
operation that waits in one of its lanes. In every run of operations, transactions, blocks and rounds the
operation still waits, and each round in which it was this node's turn has brought it up by as many
places as a block takes; or some event of the run has decided about it. So it is decided about by the time
the turns times the cap exceed its place. -/
theorem lane_served {L : Lane P} (hL : L ∈ lanes P) {calls : List (Mempool.PoolCall P)}
    (hn : n.mempool = Mempool.run serializedSize calls) {op : L.Op} (hop : op ∈ L.pending n.mempool)
    (events : List (SiteEvent P)) :
    (op ∈ L.pending (n.run serializedSize events).mempool ∧
        L.place (n.run serializedSize events) op + L.cap * n.turns serializedSize events ≤ L.place n op) ∨
      ∃ before ev after, events = before ++ ev :: after ∧
        op ∈ L.pending (n.run serializedSize before).mempool ∧
        L.place (n.run serializedSize before) op + L.cap * n.turns serializedSize before ≤ L.place n op ∧
        L.Decides (n.run serializedSize before) ev (n.run serializedSize (before ++ [ev])) op := by
  have hsound : n.Sound := by
    rw [Site.Sound, hn]
    exact ⟨Mempool.orderly_run serializedSize calls, Mempool.admitted_run serializedSize calls⟩
  have hserved := Fifo.served (Site.step serializedSize) Site.Sound
    (fun n => op ∈ L.pending n.mempool) (fun n => L.place n op)
    (fun n ev => L.cap * (if (n.proposed ev).isSome then 1 else 0))
    (fun n ev => L.Decides n ev (n.step serializedSize ev) op)
    (fun n ev h => h.step ev) (fun n ev h hop => Lane.step hL h hop ev) hsound hop events
  simp only [Fifo.total_mul] at hserved
  rcases hserved with hwaits | ⟨before, ev, after, heq, hbefore, hplace, hdecided⟩
  · exact .inl hwaits
  · refine .inr ⟨before, ev, after, heq, hbefore, hplace, ?_⟩
    rw [Site.run_concat]
    exact hdecided

end Runs

namespace Devnet

/-- The owner of a name hands it over. -/
def handover : TransferNameOp crypto := transferOp "alice" 3 4

theorem handover_pending :
    handover ∈ (Mempool.run serializedSize [.addTransferOp handover]).pendingTransferOps ∧
      (Proposer.round env (ChainState.deliver [genesis, nameBlock])
        (Mempool.run serializedSize [.addTransferOp handover])).1.2.pendingTransferOps.isEmpty = true := by
  decide +kernel

/-- One round decides about the only transfer. -/
theorem handover_decided :
    ∃ n : Site crypto, n.chain = ChainState.deliver [genesis, nameBlock] ∧
      n.mempool = Mempool.run serializedSize [.addTransferOp handover] ∧
      (transferLane crypto).Decides n (.round env) (n.run serializedSize [.round env]) handover := by
  have hsite : ∀ (s : ChainState crypto) (m : Mempool crypto),
      ∃ n : Site crypto, n.chain = s ∧ n.mempool = m := fun s m => ⟨⟨s, m⟩, rfl, rfl⟩
  obtain ⟨n, hchain, hmempool⟩ := hsite (ChainState.deliver [genesis, nameBlock])
    (Mempool.run serializedSize [.addTransferOp handover])
  obtain ⟨hpending, htaken⟩ := handover_pending
  rw [← hmempool] at hpending htaken
  rw [← hchain] at htaken
  refine ⟨n, hchain, hmempool, ?_⟩
  rcases lane_served (L := transferLane crypto) List.mem_cons_self hmempool hpending [.round env] with
    ⟨hstill, -⟩ | ⟨before, ev, after, heq, -, -, hdecided⟩
  · have hmem : handover ∈ (Proposer.round env n.chain n.mempool).1.2.pendingTransferOps := hstill
    rw [List.isEmpty_iff.mp htaken] at hmem
    cases hmem
  · cases before with
    | nil =>
        obtain ⟨rfl, -⟩ := List.cons.inj heq
        exact hdecided
    | cons _ before => simp at heq

end Devnet

end Haze
