import Haze.Chain.Anchor
import Haze.P2p.Snapshot

/-!
# A sync with a peer that has the chain

The node writes a request on a connection, gets the answer, and writes the next request after that. In
between the peer tells of other things, and the chain of either side can move. `Conversation` is the
node's side of this together with the requests that are not answered yet; an answer is what the handler
of `server.rs` writes on the peer's own chain.

A peer that answers like this, from a store that has its chain and from one tip for as long as the node
folds, cannot have a snapshot adopted that is not of the last folded block (`snapshot_bound`). What the
peer has pruned does not matter for that, and neither do the bodies of blocks: everything rests on the
headers and their hashes.
-/

namespace Haze

variable {P : Crypto}

open ChainState

/-- Messages that the peer answers. -/
def P2pMessage.isRequest : P2pMessage P → Bool
  | .getBlocks _ | .getUtxoSnapshot => true
  | _ => false

/-- The node's side of a connection. -/
structure Conversation (P : Crypto) where
  watch : Watch P
  /-- The requests that are not answered yet, oldest first. -/
  asked : List (P2pMessage P)
  /-- The peer's tip when it answered last. -/
  peerTip : Bytes32

/-- What comes in next. -/
inductive PeerMove (P : Crypto) where
  /-- A message that is no answer. -/
  | tells (m : P2pMessage P)
  /-- The answer to the oldest request, from a peer in this state. -/
  | answers (p : ChainState P)

namespace Conversation

variable (c : Conversation P)

def start (s : ChainState P) : Conversation P :=
  ⟨Watch.start s, [], zeroHash⟩

/-- A message is handled; the requests among the messages written back wait for their answers. -/
def receive (m : P2pMessage P) : Conversation P :=
  { c with
    watch := c.watch.receive m
    asked := c.asked ++ (c.watch.connection.handle m).2.filter P2pMessage.isRequest }

/-- What a peer in state `p` answers next. -/
def replies (p : ChainState P) : List (P2pMessage P) :=
  match c.asked with
  | [] => []
  | request :: _ => (Connection.handle ⟨p, .idle⟩ request).2

def step : PeerMove P → Conversation P
  | .tells m => c.receive m
  | .answers p =>
      (c.replies p).foldl receive { c with asked := c.asked.tail, peerTip := p.lastBlockHash }

def run (s : ChainState P) (moves : List (PeerMove P)) : Conversation P :=
  moves.foldl step (start s)

/-- **The peer plays by the rules.** Its answers come from its own state, a `Peer`, and from one tip while
the node folds; it greets when nothing is asked, and sends batches and snapshots only as answers. Blocks
that are told of have headers of `H`. -/
def Honest (H : BlockHeader P → Prop) (Peer : ChainState P → Prop) (c : Conversation P) :
    PeerMove P → Prop
  | .answers p => Peer p ∧
      (c.watch.connection.session.aggregateMode = true → p.lastBlockHash = c.peerTip)
  | .tells (.chainInfo _ _) => c.asked = []
  | .tells (.newBlock b) => H b.header
  | .tells (.blocksBatch _ _) | .tells (.utxoSnapshot _ _ _) => False
  | .tells (.handshake _) | .tells (.getBlocks _) | .tells (.prunedRange _)
  | .tells .getUtxoSnapshot | .tells .gossip => True

/-- `Q` holds of every move. -/
def EachMove (Q : Conversation P → PeerMove P → Prop) : List (PeerMove P) → Conversation P → Prop
  | [], _ => True
  | m :: ms, c => Q c m ∧ EachMove Q ms (c.step m)

section Rules

variable {c} {Q : Conversation P → PeerMove P → Prop} {motive : Conversation P → Prop}

theorem eachMove_concat {ms : List (PeerMove P)} {m : PeerMove P} (h : EachMove Q (ms ++ [m]) c) :
    EachMove Q ms c ∧ Q (ms.foldl step c) m := by
  induction ms generalizing c with
  | nil => exact ⟨trivial, h.1⟩
  | cons m' ms ih =>
      obtain ⟨hm', hms⟩ := h
      obtain ⟨hrest, hlast⟩ := ih hms
      exact ⟨⟨hm', hrest⟩, hlast⟩

theorem run_induct {ms : List (PeerMove P)} (hc : motive c) (hQ : EachMove Q ms c)
    (step : ∀ {c m}, motive c → Q c m → motive (c.step m)) : motive (ms.foldl Conversation.step c) := by
  induction ms generalizing c with
  | nil => exact hc
  | cons m ms ih => exact ih (step hc hQ.1) hQ.2

theorem EachMove.mono {Q' : Conversation P → PeerMove P → Prop} (hQ : ∀ c m, Q c m → Q' c m)
    {ms : List (PeerMove P)} (h : EachMove Q ms c) : EachMove Q' ms c := by
  induction ms generalizing c with
  | nil => trivial
  | cons m ms ih => exact ⟨hQ _ _ h.1, ih h.2⟩

theorem Honest.mono {H : BlockHeader P → Prop} {Peer Peer' : ChainState P → Prop}
    (hPeer : ∀ p, Peer p → Peer' p) {m : PeerMove P} (h : Honest H Peer c m) : Honest H Peer' c m := by
  cases m with
  | answers p => exact ⟨hPeer p h.1, h.2⟩
  | tells m =>
      cases m with
      | _ => exact h

end Rules

/-- A conversation is a run of messages. -/
theorem exists_watch_run (s : ChainState P) (moves : List (PeerMove P)) :
    ∃ ms, (run s moves).watch = Watch.run s ms := by
  have hreceive : ∀ (ms : List (P2pMessage P)) (c : Conversation P),
      (ms.foldl receive c).watch = ms.foldl Watch.receive c.watch := by
    intro ms
    induction ms with
    | nil => exact fun c => rfl
    | cons m ms ih => exact fun c => ih (c.receive m)
  induction moves using List.reverseRecOn with
  | nil => exact ⟨[], rfl⟩
  | append_singleton moves m ih =>
      obtain ⟨ms, hms⟩ := ih
      have hstep : run s (moves ++ [m]) = (run s moves).step m := by simp [run]
      rw [hstep]
      cases m with
      | tells m => exact ⟨ms ++ [m], by simp [step, receive, hms, Watch.run]⟩
      | answers p =>
          refine ⟨ms ++ (run s moves).replies p, ?_⟩
          rw [step, hreceive, Watch.run, List.foldl_append, hms]
          rfl

end Conversation

/-! ## Batches that are looked at in full

The loop over a batch stops early when a block does not continue the folded ones, or when the chain rejects
a block that is not next to its tip. Either way nothing is folded afterwards. -/

namespace Watch

variable {w : Watch P} {b : Block P} {bs : List (Block P)}

/-- Where the loop goes on, the block is folded or it is the tip. -/
theorem syncBlock_goes (h : (w.syncBlock b).2 = true) :
    ((w.syncBlock b).1.connection.session.aggregateMode = true ∧
      (w.syncBlock b).1.folded.getLast? = some b) ∨
    ((w.syncBlock b).1.connection.session.aggregateMode = false ∧
      (w.syncBlock b).1.connection.chain.lastBlockHash = b.hash ∧
      (w.syncBlock b).1.connection.chain.currentHeight = b.height) := by
  rcases w.syncBlock_cases b with ⟨hmode, -⟩ | ⟨hmode, -, heq⟩ | ⟨-, -, -, heq⟩
  · refine .inr ⟨hmode, ?_⟩
    have hstep := Connection.syncStep_syncBlock w.connection b
    rw [(connection_syncBlock w b).1] at hmode ⊢
    rw [(connection_syncBlock w b).2] at h
    generalize w.connection.syncBlock b = step at h hmode hstep ⊢
    cases hstep with
    | folded hbefore _ => exact absurd (hbefore.symm.trans hmode) (by simp)
    | aborted _ _ => cases h
    | applied _ happlied => exact tip_of_applied happlied
    | fellBack _ _ _ _ => cases hmode
    | stopped _ _ _ => cases h
  · rw [heq]
    exact .inl ⟨hmode, List.getLast?_concat⟩
  · rw [heq]
    exact .inl ⟨rfl, rfl⟩

/-- Where it stops, nothing is folded any more. -/
theorem mode_of_stop (h : (w.syncBlock b).2 = false) :
    (w.syncBlock b).1.connection.session.aggregateMode = false := by
  have hstep := Connection.syncStep_syncBlock w.connection b
  rw [(connection_syncBlock w b).1]
  rw [(connection_syncBlock w b).2] at h
  generalize w.connection.syncBlock b = step at h hstep ⊢
  cases hstep with
  | folded _ _ => cases h
  | aborted _ _ => rfl
  | applied _ _ => cases h
  | fellBack _ _ _ _ => cases h
  | stopped hmode _ _ => exact hmode

/-- How the loop over a batch ends: short of the end with nothing folded, or with the last block. -/
theorem syncBlocks_ends (bs : List (Block P)) (w : Watch P) :
    ((Connection.syncBlocks bs w.connection).2 ≠ bs.length ∧
      (syncBlocks bs w).connection.session.aggregateMode = false) ∨
    ((Connection.syncBlocks bs w.connection).2 = bs.length ∧
      ∀ b ∈ bs.getLast?, ∃ w' : Watch P, (w'.syncBlock b).2 = true ∧
        syncBlocks bs w = (w'.syncBlock b).1) := by
  -- the first block decides whether the loop goes on
  induction bs generalizing w with
  | nil => exact .inr ⟨rfl, by simp⟩
  | cons b bs ih =>
      obtain ⟨hconnection, hgoes⟩ := connection_syncBlock w b
      have hstop := @mode_of_stop P w b
      simp only [syncBlocks, Connection.syncBlocks]
      generalize hstep : w.syncBlock b = step at hconnection hgoes hstop ⊢
      generalize w.connection.syncBlock b = step' at hconnection hgoes ⊢
      obtain ⟨w', goes⟩ := step
      obtain ⟨c', goes'⟩ := step'
      obtain rfl : w'.connection = c' := hconnection
      obtain rfl : goes = goes' := hgoes
      cases goes with
      | false => exact .inl ⟨by simp, hstop rfl⟩
      | true =>
          rcases ih w' with ⟨hcut, hmode⟩ | ⟨hfull, hlast⟩
          · exact .inl ⟨by simpa using hcut, hmode⟩
          · refine .inr ⟨by simpa using hfull, ?_⟩
            intro x hx
            cases bs with
            | nil =>
                obtain rfl : b = x := Option.some.inj hx
                exact ⟨w, by rw [hstep], by rw [hstep]; rfl⟩
            | cons b' bs =>
                rw [List.getLast?_cons_cons] at hx
                exact hlast x hx

end Watch

namespace Conversation

variable {H : BlockHeader P → Prop} {c : Conversation P}

open Watch

/-! ## The three kinds of answer

An answer is handled like any other message, except that the request it answers is dropped from the list
first. -/

section Answers

variable (p : ChainState P)

theorem step_quiet (hasked : c.asked = []) :
    c.step (.answers p) = { c with asked := [], peerTip := p.lastBlockHash } := by
  simp [step, replies, hasked]

theorem step_getBlocks {fromHeight : UInt64} (hasked : c.asked = [.getBlocks fromHeight]) :
    c.step (.answers p) = receive { c with asked := [], peerTip := p.lastBlockHash }
      (.blocksBatch (p.getBlocksFrom fromHeight syncBatchSize).1
        (p.getBlocksFrom fromHeight syncBatchSize).2) := by
  simp [step, replies, hasked, Connection.handle]

theorem step_getUtxoSnapshot (hasked : c.asked = [.getUtxoSnapshot]) :
    c.step (.answers p) = receive { c with asked := [], peerTip := p.lastBlockHash }
      (.utxoSnapshot p.utxos.val p.currentHeight p.lastBlockHash) := by
  simp [step, replies, hasked, Connection.handle]

end Answers

/-- The height after one that is below another does not wrap. -/
theorem toNat_next_of_lt {height tip : UInt64} (h : height < tip) :
    (height + 1).toNat = height.toNat + 1 := by
  have hlt := UInt64.lt_iff_toNat_lt.mp h
  have hfit := tip.toNat_lt
  rw [UInt64.toNat_add, UInt64.toNat_one]
  omega

/-- It is not zero, and at most the other. -/
theorem next_of_lt {height tip : UInt64} (h : height < tip) : height + 1 ≠ 0 ∧ height + 1 ≤ tip := by
  have hnext := toNat_next_of_lt h
  constructor
  · intro hzero
    rw [hzero, UInt64.toNat_zero] at hnext
    exact Nat.succ_ne_zero _ hnext.symm
  · rw [UInt64.le_iff_toNat_le, hnext]
    exact UInt64.lt_iff_toNat_lt.mp h

/-! ## What holds along the way

At most one request is open at a time, because the next one is written only when the answer to the last has
been handled. What the node waits for is part of the invariant, together with what the folded blocks are. -/

/-- What the node waits for. While it folds, the peer has the blocks that it has asked for, or its tip is
the last block folded. -/
inductive Pending (H : BlockHeader P → Prop) (w : Watch P) (peerTip : Bytes32) :
    List (P2pMessage P) → Prop
  | quiet : w.connection.session.aggregateMode = false → Pending H w peerTip []
  | range {fromHeight : UInt64} : fromHeight ≠ 0 →
      (w.connection.session.aggregateMode = true → ∃ p : ChainState P, Rooted H p ∧
        p.lastBlockHash = peerTip ∧ fromHeight ≤ p.currentHeight) →
      Pending H w peerTip [.getBlocks fromHeight]
  | snapshot : (∀ last ∈ w.folded.getLast?, last.hash = peerTip) →
      Pending H w peerTip [.getUtxoSnapshot]

/-- What a conversation with an honest peer keeps up. -/
structure Keeps (H : BlockHeader P → Prop) (c : Conversation P) : Prop where
  anchored : Anchored H c.watch.connection.chain
  folding : Folding c.watch
  climbs : Climbs c.watch
  headed : ∀ b ∈ c.watch.folded, H b.header
  pending : Pending H c.watch c.peerTip c.asked

theorem keeps_start {s : ChainState P} (hs : Anchored H s) : Keeps H (start s) where
  anchored := hs
  folding := folding_idle rfl rfl
  climbs := by
    intro i b hb
    cases hb
  headed := by
    intro b hb
    cases hb
  pending := .quiet rfl

/-- Peers on one tip have one height. -/
theorem height_eq_of_tip {p p' : ChainState P} (hH : DistinctHeaders H) (hp : Anchored H p)
    (hp' : Anchored H p') (htip : p.lastBlockHash = p'.lastBlockHash) :
    p.currentHeight = p'.currentHeight := by
  rcases hp with ⟨hzero, hheight⟩ | ⟨h, hh, hhash, hheight⟩
  · rcases hp' with ⟨-, hheight'⟩ | ⟨h', hh', hhash', -⟩
    · rw [hheight, hheight']
    · exact absurd (hhash'.trans (htip.symm.trans hzero)) (hH.proper h' hh')
  · rcases hp' with ⟨hzero', -⟩ | ⟨h', hh', hhash', hheight'⟩
    · exact absurd (hhash.trans (htip.trans hzero')) (hH.proper h hh)
    · rw [← hheight, ← hheight', hH.inj h h' hh hh' (hhash.trans (htip.trans hhash'.symm))]

/-- The blocks that a peer serves are folded, or applied, one on top of the other. -/
theorem Keeps.syncBlocks {bs : List (Block P)} (h : Keeps H c) (hbs : ∀ b ∈ bs, OnTop H b) :
    Anchored H (Watch.syncBlocks bs c.watch).connection.chain ∧
      Folding (Watch.syncBlocks bs c.watch) ∧ Climbs (Watch.syncBlocks bs c.watch) ∧
      ∀ b ∈ (Watch.syncBlocks bs c.watch).folded, H b.header := by
  refine syncBlocks_induct (R := OnTop H) (motive := fun w => Anchored H w.connection.chain ∧
    Folding w ∧ Climbs w ∧ ∀ b ∈ w.folded, H b.header)
    ⟨h.anchored, h.folding, h.climbs, h.headed⟩ hbs ?_
  rintro w b ⟨hanchored, hfolding, hclimbs, hheaded⟩ hb
  have hchain : Anchored H (w.syncBlock b).1.connection.chain := by
    rcases chain_syncBlock w b with heq | heq
    · rw [heq]
      exact hanchored
    · rw [heq]
      exact hanchored.applyBlock hb.header
  have hclimbs' := hclimbs.syncBlock hfolding
    (fun parent hparent hfollows =>
      hb.follows parent.header (hheaded parent (List.mem_of_getLast? hparent)) hfollows)
    (fun hprev => hb.height_eq hanchored hprev)
  refine ⟨hchain, hfolding.syncBlock b, hclimbs', ?_⟩
  intro x hx
  rcases mem_folded_syncBlock hx with hx | rfl
  · exact hheaded x hx
  · exact hb.header

/-- What the node asks for after a batch of the peer's chain. -/
theorem Keeps.pending_syncBlocks {p : ChainState P} {fromHeight : UInt64} {bs : List (Block P)}
    {hasMore : Bool} (hH : DistinctHeaders H) (h : Keeps H c) (hp : Rooted H p)
    (hasked : c.asked = [.getBlocks fromHeight])
    (hsteady : c.watch.connection.session.aggregateMode = true → p.lastBlockHash = c.peerTip)
    (hserved : ServesRange H p fromHeight bs hasMore) :
    Pending H (Watch.syncBlocks bs c.watch) p.lastBlockHash
      ((((Connection.syncBlocks bs c.watch.connection).1.nextRequest bs hasMore
        (Connection.syncBlocks bs c.watch.connection).2)).filter P2pMessage.isRequest) := by
  have hends := syncBlocks_ends bs c.watch
  rw [← connection_syncBlocks]
  cases hlast : bs.getLast? with
  | none =>
      -- nothing was left to serve, so the node does not fold
      obtain rfl := List.getLast?_eq_none_iff.mp hlast
      have hmore : hasMore = false := by
        cases hasMore with
        | false => rfl
        | true =>
            obtain ⟨last, hlast, -⟩ := hserved.more rfl
            cases hlast
      have hmode : c.watch.connection.session.aggregateMode = false := by
        rw [Bool.eq_false_iff]
        intro hmode
        have hpending := h.pending
        rw [hasked] at hpending
        cases hpending with
        | range _ hhas =>
            obtain ⟨p', hp', htip, hle⟩ := hhas hmode
            rw [height_eq_of_tip hH hp'.anchored hp.anchored (htip.trans (hsteady hmode).symm)] at hle
            exact hserved.some hle rfl
      simp only [Watch.syncBlocks, Connection.nextRequest, hmore, hmode, Bool.false_and, Bool.and_false,
        Bool.false_eq_true, if_false, List.filter_nil]
      exact .quiet hmode
  | some b =>
      rcases hends with ⟨hcut, hmode⟩ | ⟨hfull, hstep⟩
      · simp only [Connection.nextRequest, hmode, beq_eq_false_iff_ne.mpr hcut, Bool.and_false,
          Bool.false_eq_true, if_false, List.filter_nil]
        exact .quiet hmode
      obtain ⟨w', hgoes, heq⟩ := hstep b hlast
      rw [hfull, heq]
      -- the node may ask for the block after `b`, which the peer has
      have hnext : hasMore = true → b.height + 1 ≠ 0 ∧ b.height + 1 ≤ p.currentHeight := by
        intro hmore
        obtain ⟨last, hlast', hlt⟩ := hserved.more hmore
        obtain rfl : b = last := Option.some.inj (hlast.symm.trans hlast')
        exact next_of_lt hlt
      rcases syncBlock_goes hgoes with ⟨hmode, hfolded⟩ | ⟨hmode, -, hheight⟩
      · cases hmore : hasMore with
        | true =>
            simp only [Connection.nextRequest, hmode, hlast, beq_self_eq_true, Bool.and_self, if_true,
              Option.map_some, Option.getD_some]
            exact .range (hnext hmore).1 fun _ => ⟨p, hp, rfl, (hnext hmore).2⟩
        | false =>
            simp only [Connection.nextRequest, hmode, beq_self_eq_true, Bool.false_and,
              Bool.and_self, Bool.false_eq_true, if_false, if_true]
            refine .snapshot ?_
            rw [hfolded]
            intro last hlast'
            obtain rfl := Option.some.inj hlast'
            exact hserved.all hmore b hlast
      · cases hmore : hasMore with
        | true =>
            simp only [Connection.nextRequest, hmode, hheight, beq_self_eq_true, Bool.and_self, if_true,
              Bool.false_eq_true, if_false]
            exact .range (hnext hmore).1 fun hfolds => absurd (hmode.symm.trans hfolds) (by simp)
        | false =>
            simp only [Connection.nextRequest, hmode, Bool.false_and, Bool.and_false,
              Bool.false_eq_true, if_false, List.filter_nil]
            exact .quiet hmode

section Receive

variable {m : P2pMessage P} (hm : ∀ bs more, m ≠ .blocksBatch bs more)
include hm

/-- Only batches add to what is folded. -/
theorem Keeps.receive (h : Keeps H c) : Folding (c.watch.receive m) ∧ Climbs (c.watch.receive m) ∧
    ∀ b ∈ (c.watch.receive m).folded, H b.header := by
  refine ⟨h.folding.receive hm, ?_⟩
  rcases c.watch.receive_cases hm with ⟨-, hfolded⟩ | ⟨-, hentry, hfolded⟩
  · unfold Climbs
    rw [hfolded]
    exact ⟨fun _ _ hb => (by cases hb), fun _ hb => (by cases hb)⟩
  · unfold Climbs
    rw [hfolded, hentry]
    exact ⟨h.climbs, h.headed⟩

theorem Pending.receive {w : Watch P} {peerTip : Bytes32} {asked : List (P2pMessage P)}
    (h : Pending H w peerTip asked)
    (hmode : (w.receive m).connection.session.aggregateMode =
      w.connection.session.aggregateMode) : Pending H (w.receive m) peerTip asked := by
  cases h with
  | quiet hquiet => exact .quiet (hmode.trans hquiet)
  | range hpos hhas => exact .range hpos (hmode ▸ hhas)
  | snapshot hlast =>
      refine .snapshot ?_
      rcases w.receive_cases hm with ⟨-, hfolded⟩ | ⟨-, -, hfolded⟩
      · rw [hfolded]
        simp
      · rw [hfolded]
        exact hlast

end Receive

/-- A message that is no answer. -/
theorem Keeps.tells {Peer : ChainState P → Prop} {m : P2pMessage P} (h : Keeps H c)
    (hm : Honest H Peer c (.tells m)) : Keeps H (c.receive m) := by
  have hbatch : ∀ bs more, m ≠ .blocksBatch bs more := by
    rintro bs more rfl
    exact hm
  have hconnection := connection_receive c.watch m
  obtain ⟨hfolding, hclimbs, hheaded⟩ := h.receive hbatch
  have hsession : (c.watch.connection.handle m).1.session = c.watch.connection.session := by
    cases m with
    | blocksBatch _ _ => exact absurd hm id
    | utxoSnapshot _ _ _ => exact absurd hm id
    | _ => rfl
  have hpending := h.pending.receive hbatch (by rw [hconnection, hsession])
  -- a new block or a greeting may move the chain, and none of the others does
  have hanchored : Anchored H (c.watch.receive m).connection.chain := by
    rw [hconnection]
    cases m with
    | newBlock b => exact h.anchored.applyBlock hm
    | blocksBatch _ _ => exact absurd hm id
    | utxoSnapshot _ _ _ => exact absurd hm id
    | _ => exact h.anchored
  refine ⟨hanchored, hfolding, hclimbs, hheaded, ?_⟩
  show Pending H (c.watch.receive m) c.peerTip
    (c.asked ++ (c.watch.connection.handle m).2.filter P2pMessage.isRequest)
  cases m with
  | blocksBatch _ _ => exact absurd hm id
  | utxoSnapshot _ _ _ => exact absurd hm id
  -- the greeting is where requests begin
  | chainInfo height tipHash =>
      have hasked : c.asked = [] := hm
      rw [hasked] at hpending ⊢
      simp only [Connection.handle, List.nil_append]
      split_ifs with hhigher
      · cases hpending with
        | quiet hmode =>
            exact .range (next_of_lt hhigher).1 fun hfolds => absurd (hmode.symm.trans hfolds) (by simp)
      · exact hpending
  | _ => simpa [Connection.handle, P2pMessage.isRequest] using hpending

/-- The answer to the oldest request. -/
theorem Keeps.answers {p : ChainState P} (hH : DistinctHeaders H) (h : Keeps H c) (hp : Rooted H p)
    (hsteady : c.watch.connection.session.aggregateMode = true → p.lastBlockHash = c.peerTip) :
    Keeps H (c.step (.answers p)) := by
  -- the cases of what the node may be waiting for
  cases hasked : c.asked with
  | nil =>
      have hpending := h.pending
      rw [hasked] at hpending
      rw [step_quiet p hasked]
      cases hpending with
      | quiet hmode => exact ⟨h.anchored, h.folding, h.climbs, h.headed, .quiet hmode⟩
  | cons request rest =>
      have hpending := h.pending
      rw [hasked] at hpending
      cases hpending with
      | @range fromHeight hpos _ =>
          have hserved : ServesRange H p fromHeight
              (p.getBlocksFrom fromHeight syncBatchSize).1 _ := hp.servesRange hH hpos (by decide)
          obtain ⟨hanchored, hfolding, hclimbs, hheaded⟩ := h.syncBlocks hserved.onTop
          have hnext := h.pending_syncBlocks hH hp hasked hsteady hserved
          rw [step_getBlocks p hasked]
          exact ⟨hanchored, hfolding, hclimbs, hheaded, hnext⟩
      | snapshot hlast =>
          obtain ⟨hfolding, hclimbs, hheaded⟩ := h.receive
            (m := .utxoSnapshot p.utxos.val p.currentHeight p.lastBlockHash) (by simp)
          rw [step_getUtxoSnapshot p hasked]
          -- the snapshot may be adopted, or be turned away and end the folding
          refine ⟨?_, hfolding, hclimbs, hheaded, ?_⟩
          · show Anchored H (c.watch.receive _).connection.chain
            rw [connection_receive]
            simp only [Connection.handle]
            split_ifs
            · exact hp.anchored.of_tip rfl rfl
            · exact h.anchored
            · exact h.anchored
          · have hquiet : (c.watch.receive
                (.utxoSnapshot p.utxos.val p.currentHeight p.lastBlockHash)).connection.session.aggregateMode
                  = false := by
              rw [connection_receive]
              simp only [Connection.handle]
              split_ifs with hmode
              · rfl
              · rfl
              · simpa using hmode
            have hnone : (c.watch.connection.handle
                (.utxoSnapshot p.utxos.val p.currentHeight p.lastBlockHash)).2 = [] := by
              simp only [Connection.handle]
              split_ifs <;> rfl
            simp only [Conversation.receive, hnone, List.filter_nil, List.append_nil]
            exact .quiet hquiet

theorem Keeps.step {m : PeerMove P} (hH : DistinctHeaders H) (h : Keeps H c)
    (hm : Honest H (Rooted H) c m) : Keeps H (c.step m) := by
  cases m with
  | tells m => exact h.tells hm
  | answers p => exact h.answers hH hm.1 hm.2

theorem keeps_run {s : ChainState P} {moves : List (PeerMove P)} (hH : DistinctHeaders H)
    (hs : Anchored H s) (hhonest : EachMove (Honest H (Rooted H)) moves (start s)) :
    Keeps H (run s moves) :=
  run_induct (keeps_start hs) hhonest fun h hm => h.step hH hm

/-! ## Adopted snapshots

The handler checks a sum over the coins and the kernels, and compares neither the height nor the tip with
the blocks it has folded. That they fit follows from how an honest peer answers: the last block folded was
its tip, and while the node folds that tip has not moved. -/

theorem mem_replies (p : ChainState P) (hasked : c.asked = [.getUtxoSnapshot]) :
    .utxoSnapshot p.utxos.val p.currentHeight p.lastBlockHash ∈ c.replies p := by
  simp [replies, hasked, Connection.handle]

/-- A snapshot only comes as the answer to a request for one. -/
theorem asked_of_snapshot {p : ChainState P} {utxos : Multiset (Commitment P)} {height : UInt64}
    {tipHash : Bytes32} (h : Keeps H c) (hreply : .utxoSnapshot utxos height tipHash ∈ c.replies p) :
    c.asked = [.getUtxoSnapshot] ∧ utxos = p.utxos.val ∧ height = p.currentHeight ∧
      tipHash = p.lastBlockHash := by
  have hpending := h.pending
  unfold replies at hreply
  cases hasked : c.asked with
  | nil => simp [hasked] at hreply
  | cons request rest =>
      rw [hasked] at hpending hreply
      cases hpending with
      | range _ _ => simp [Connection.handle] at hreply
      | snapshot _ => simpa [Connection.handle] using hreply

theorem Keeps.bound {p : ChainState P} (hH : DistinctHeaders H) (h : Keeps H c) (hp : Rooted H p)
    (hmode : c.watch.connection.session.aggregateMode = true) (hsteady : p.lastBlockHash = c.peerTip)
    (hasked : c.asked = [.getUtxoSnapshot]) :
    Bound c.watch p.currentHeight p.lastBlockHash := by
  obtain ⟨last, hlast, -⟩ := h.folding.last hmode
  have hpending := h.pending
  rw [hasked] at hpending
  cases hpending with
  | snapshot htip =>
      have hhash : last.hash = p.lastBlockHash := (htip last hlast).trans hsteady.symm
      have hH' := h.headed last (List.mem_of_getLast? hlast)
      refine ⟨⟨last, hlast, hhash.symm, ?_⟩, h.folding.linked, h.folding.first, h.climbs⟩
      rcases hp.anchored with ⟨hzero, -⟩ | ⟨hd, hHd, hhash', hheight⟩
      · exact absurd (hhash.trans hzero) (hH.proper last.header hH')
      · rw [← hheight, hH.inj hd last.header hHd hH' (hhash'.trans hhash.symm)]
        rfl

/-- **An adopted snapshot is bound to the folded chain**, whatever a peer has told and answered before
that answers from stores with its chain, and from one tip while the node folds. -/
theorem snapshot_bound {s : ChainState P} {moves : List (PeerMove P)} {p : ChainState P}
    {utxos : Multiset (Commitment P)} {height : UInt64} {tipHash : Bytes32}
    (hH : DistinctHeaders H) (hs : Anchored H s)
    (hhonest : EachMove (Honest H (Rooted H)) (moves ++ [.answers p]) (start s))
    (hreply : .utxoSnapshot utxos height tipHash ∈ (run s moves).replies p)
    (haccepts : (run s moves).watch.connection.accepts utxos height = true) :
    Bound (run s moves).watch height tipHash := by
  obtain ⟨hmoves, hp, hsteady⟩ := eachMove_concat hhonest
  have hkeeps := keeps_run hH hs hmoves
  have hmode := Connection.aggregateMode_of_accepts haccepts
  obtain ⟨hasked, -, rfl, rfl⟩ := asked_of_snapshot hkeeps hreply
  exact hkeeps.bound hH hp hmode (hsteady hmode) hasked

/-! ## A sync from end to end

The simplest conversation: a greeting, and one answer after the other from a peer that stays as it is. -/

theorem peerTip_answers (p : ChainState P) (c : Conversation P) :
    (c.step (.answers p)).peerTip = p.lastBlockHash := by
  have hkept : ∀ (ms : List (P2pMessage P)) (c : Conversation P),
      (ms.foldl receive c).peerTip = c.peerTip := by
    intro ms
    induction ms with
    | nil => exact fun c => rfl
    | cons m ms ih => exact fun c => ih (c.receive m)
  rw [step, hkept]

/-- The greeting, and answers from a peer that stays as it is. -/
def sync (p : ChainState P) (n : ℕ) : List (PeerMove P) :=
  .tells (.chainInfo p.currentHeight p.lastBlockHash) :: List.replicate n (.answers p)

theorem honest_sync {Peer : ChainState P → Prop} {p : ChainState P} (s : ChainState P) (n : ℕ)
    (hp : Peer p) : EachMove (Honest H Peer) (sync p n) (start s) := by
  have hrest : ∀ (n : ℕ) (c : Conversation P), c.peerTip = p.lastBlockHash →
      EachMove (Honest H Peer) (List.replicate n (.answers p)) c := by
    intro n
    induction n with
    | zero => exact fun c _ => trivial
    | succ n ih => exact fun c htip => ⟨⟨hp, fun _ => htip.symm⟩, ih _ (peerTip_answers p c)⟩
  refine ⟨rfl, ?_⟩
  cases n with
  | zero => trivial
  | succ n =>
      refine ⟨⟨hp, ?_⟩, hrest n _ (peerTip_answers p _)⟩
      -- the greeting does not start an aggregate sync
      intro hmode
      have hconnection := connection_receive (Watch.start s)
        (.chainInfo p.currentHeight p.lastBlockHash)
      have hmode' : (Watch.receive (Watch.start s)
        (.chainInfo p.currentHeight p.lastBlockHash)).connection.session.aggregateMode = true := hmode
      rw [hconnection] at hmode'
      cases hmode'

/-- Against a peer that is higher, the first answer is a batch from the next height on. -/
theorem watch_sync_one {s p : ChainState P} (hhigher : s.currentHeight < p.currentHeight) :
    (run s (sync p 1)).watch = (Watch.start s).receive
      (.blocksBatch (p.getBlocksFrom (s.currentHeight + 1) syncBatchSize).1
        (p.getBlocksFrom (s.currentHeight + 1) syncBatchSize).2) := by
  have hgreeting : (start s).receive (.chainInfo p.currentHeight p.lastBlockHash) =
      { start s with asked := [.getBlocks (s.currentHeight + 1)] } := by
    simp [receive, start, Watch.start, Watch.receive, moved, Connection.handle, hhigher, Session.idle,
      P2pMessage.isRequest]
  show (((start s).receive (.chainInfo p.currentHeight p.lastBlockHash)).step (.answers p)).watch = _
  rw [hgreeting, step_getBlocks p rfl]
  rfl

/-- The node waits for a snapshot and for nothing else. -/
def awaitsSnapshot (c : Conversation P) : Bool :=
  match c.asked with
  | [.getUtxoSnapshot] => true
  | _ => false

theorem asked_of_awaitsSnapshot (h : c.awaitsSnapshot = true) : c.asked = [.getUtxoSnapshot] := by
  unfold awaitsSnapshot at h
  split at h
  next hasked => exact hasked
  next => cases h

end Conversation

namespace Devnet

open ChainState Conversation

/-! ## A pruned peer

A chain of four blocks on the devnet, served by a peer that has pruned it. -/

@[irreducible] def earnBlock : Block crypto :=
  mine (linear [genesis]) (coinbase 1 11)

/-- Spends the reward of the block before, and registers a name. -/
@[irreducible] def spendBlock : Block crypto :=
  mineNames (linear [genesis, earnBlock])
    ⟨[⟨Commitment.new (P := crypto) 540 (11 : BitVec 256)⟩], [output 540 13, output 540 14],
      [kernel (0 - 13) 0, kernel (11 - 14) 0]⟩
    [nameOp "alice" 3 (payment (genesisTotalMinted - 1_000_000) 7 3 5)]

@[irreducible] def quietBlock : Block crypto :=
  mine (linear [genesis, earnBlock, spendBlock]) (coinbase 3 15)

/-- What the peer has applied. -/
def peerBlocks : List (Block crypto) := [genesis, earnBlock, spendBlock, quietBlock]

/-- A peer on these blocks that has pruned everything spent at height 2. -/
@[irreducible] def prunedPeer : ChainState crypto :=
  ((deliver peerBlocks).compact (peerBlocks.map Block.hash) 1).1

theorem peerBlocks_distinct : (zeroHash :: peerBlocks.map Block.hash).Nodup := by
  decide +kernel

theorem prunedPeer_rooted : Rooted (· ∈ peerBlocks.map Block.header) prunedPeer := by
  have hH := distinctHeaders_of_nodup peerBlocks_distinct
  have hpeer : Rooted (· ∈ peerBlocks.map Block.header) (deliver peerBlocks) :=
    (reaches_deliver fun b hb => List.mem_map_of_mem hb).rooted hH
  unfold prunedPeer
  exact (activeChain_compact hH hpeer).1

theorem genesis_anchored : Anchored (· ∈ peerBlocks.map Block.header) (deliver [genesis]) := by
  have hH := distinctHeaders_of_nodup peerBlocks_distinct
  refine (Reaches.rooted hH (reaches_deliver ?_)).anchored
  simp [peerBlocks]

/-- A node that has the genesis block only asks for blocks, folds the three of the pruned peer, asks for
its snapshot, and would adopt it. -/
theorem prunedPeer_synced :
    (run (deliver [genesis]) (sync prunedPeer 1)).asked = [.getUtxoSnapshot] ∧
      (run (deliver [genesis]) (sync prunedPeer 1)).watch.connection.accepts prunedPeer.utxos.val
        prunedPeer.currentHeight = true ∧
      (run (deliver [genesis]) (sync prunedPeer 1)).watch.folded.map Block.hash =
        [earnBlock, spendBlock, quietBlock].map Block.hash := by
  have hrun : (run (deliver [genesis]) (sync prunedPeer 1)).awaitsSnapshot = true ∧
      (run (deliver [genesis]) (sync prunedPeer 1)).watch.connection.accepts
        prunedPeer.utxos.val prunedPeer.currentHeight = true ∧
      (run (deliver [genesis]) (sync prunedPeer 1)).watch.folded.map Block.hash =
        [earnBlock, spendBlock, quietBlock].map Block.hash := by
    decide +kernel
  exact ⟨asked_of_awaitsSnapshot hrun.1, hrun.2⟩

theorem prunedPeer_bound :
    (run (deliver [genesis]) (sync prunedPeer 1)).watch.connection.accepts prunedPeer.utxos.val
        prunedPeer.currentHeight = true ∧
      Watch.Bound (run (deliver [genesis]) (sync prunedPeer 1)).watch prunedPeer.currentHeight
        prunedPeer.lastBlockHash := by
  obtain ⟨hasked, haccepts, -⟩ := prunedPeer_synced
  exact ⟨haccepts, snapshot_bound (distinctHeaders_of_nodup peerBlocks_distinct) genesis_anchored
    (honest_sync _ 2 prunedPeer_rooted) (mem_replies _ hasked) haccepts⟩

end Devnet

end Haze
