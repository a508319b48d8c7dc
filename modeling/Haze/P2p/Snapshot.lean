import Haze.Chain.ForkPath
import Haze.P2p.Session

/-!
# Adopting a snapshot

A sync that has fallen back to aggregate validation ends with a snapshot of the peer's coins, height
and tip, and one check (`Connection.accepts`). To say what an adopted snapshot should have to do with
the blocks that were folded before, a run is watched: `Watch` records the chain at which the node fell
back and the blocks folded since, next to the connection itself.

Of the folded blocks the handlers make sure that they are linked, from the tip at which the node fell
back on (`Folding`). Nothing ties the snapshot to them beyond one sum: a peer can have a snapshot adopted
that is of no block at all, and with it a coin that no block has created (`forged_snapshot_unbound`,
`forged_coin_unknown`). What an adopted snapshot is when the peer answers from a chain of its own is the
subject of `Haze.P2p.Conversation` and `Haze.P2p.Adoption`.
-/

namespace Haze

variable {P : Crypto}

/-- All outputs of a block. -/
def Block.outputs (b : Block P) : List (Output P) :=
  b.transactions.flatMap Transaction.outputs

/-! ## What one block of a batch does

Five cases, by whether the connection folds and what becomes of the block. -/

namespace Connection

variable {c : Connection P} {b : Block P}

/-- The ways through the loop over a batch. -/
inductive SyncStep (c : Connection P) (b : Block P) : Connection P × Bool → Prop
  | folded : c.session.aggregateMode = true → c.session.links b = true →
      SyncStep c b ({ c with session := c.session.fold b }, true)
  | aborted : c.session.aggregateMode = true → c.session.links b = false →
      SyncStep c b ({ c with session := .idle }, false)
  | applied : c.session.aggregateMode = false → (c.chain.applyBlock b).2.isApplied = true →
      SyncStep c b (⟨(c.chain.applyBlock b).1, c.session⟩, true)
  | fellBack : c.session.aggregateMode = false → (c.chain.applyBlock b).2.isApplied = false →
      b.header.prevHash = (c.chain.applyBlock b).1.lastBlockHash → b.header.chainId = chainId →
      SyncStep c b
        (⟨(c.chain.applyBlock b).1, (Session.fallBack (c.chain.applyBlock b).1).fold b⟩, true)
  | stopped : c.session.aggregateMode = false → (c.chain.applyBlock b).2.isApplied = false →
      ¬ (b.header.prevHash = (c.chain.applyBlock b).1.lastBlockHash ∧ b.header.chainId = chainId) →
      SyncStep c b (⟨(c.chain.applyBlock b).1, c.session⟩, false)

theorem syncStep_syncBlock (c : Connection P) (b : Block P) : SyncStep c b (c.syncBlock b) := by
  cases hmode : c.session.aggregateMode with
  | true =>
      cases hlinks : c.session.links b with
      | true => simpa [syncBlock, hmode, hlinks] using SyncStep.folded hmode hlinks
      | false => simpa [syncBlock, hmode, hlinks] using SyncStep.aborted hmode hlinks
  | false =>
      cases happlied : (c.chain.applyBlock b).2.isApplied with
      | true => simpa [syncBlock, hmode, happlied] using SyncStep.applied hmode happlied
      | false =>
          by_cases hfits : b.header.prevHash = (c.chain.applyBlock b).1.lastBlockHash ∧
              b.header.chainId = chainId
          · simpa [syncBlock, hmode, happlied, hfits.1, hfits.2] using
              SyncStep.fellBack hmode happlied hfits.1 hfits.2
          · simpa [syncBlock, hmode, happlied, hfits] using SyncStep.stopped hmode happlied hfits

/-- A rejected delivery leaves the tip alone. -/
theorem tip_of_rejected {s : ChainState P} (h : (s.applyBlock b).2.isApplied = false) :
    (s.applyBlock b).1.lastBlockHash = s.lastBlockHash ∧
      (s.applyBlock b).1.currentHeight = s.currentHeight ∧ (s.applyBlock b).1.utxos = s.utxos := by
  have houtcome := ChainState.outcome_applyBlock s b
  generalize s.applyBlock b = r at h houtcome ⊢
  cases houtcome with
  | invalid _ => exact ⟨rfl, rfl, rfl⟩
  | refused _ => exact ⟨rfl, rfl, rfl⟩
  | linear _ _ => cases h
  | reorg _ _ _ _ _ => cases h

end Connection

/-! ## Watching a run

`Watch` records, beside a connection, on which chain the node fell back and what it has folded since. The
handlers do not see the record; the theorems compare an adopted snapshot with it. -/

/-- A connection with a record of its aggregate sync. -/
structure Watch (P : Crypto) where
  connection : Connection P
  /-- The chain when the node fell back; the current chain while it has not. -/
  entry : ChainState P
  /-- The blocks folded since, oldest first. -/
  folded : List (Block P)

namespace Watch

/-- A connection that has just been opened. -/
def start (s : ChainState P) : Watch P :=
  ⟨⟨s, .idle⟩, s, []⟩

/-- The record after a step that leads to `c'` without folding anything. -/
def moved (w : Watch P) (c' : Connection P) : Watch P :=
  if c'.session.aggregateMode then ⟨c', w.entry, w.folded⟩ else ⟨c', c'.chain, []⟩

/-- One block of a batch. -/
def syncBlock (w : Watch P) (b : Block P) : Watch P × Bool :=
  let step := w.connection.syncBlock b
  let w' : Watch P :=
    if !step.1.session.aggregateMode then ⟨step.1, step.1.chain, []⟩
    else if w.connection.session.aggregateMode then ⟨step.1, w.entry, w.folded ++ [b]⟩
    else ⟨step.1, step.1.chain, [b]⟩
  (w', step.2)

def syncBlocks : List (Block P) → Watch P → Watch P
  | [], w => w
  | b :: bs, w =>
      match w.syncBlock b with
      | (w', true) => syncBlocks bs w'
      | (w', false) => w'

/-- One message. -/
def receive (w : Watch P) : P2pMessage P → Watch P
  | .blocksBatch blocks _ => syncBlocks blocks w
  | m => w.moved (w.connection.handle m).1

/-- A run of messages on a connection opened at `s`. -/
def run (s : ChainState P) (ms : List (P2pMessage P)) : Watch P :=
  ms.foldl receive (start s)

variable {w : Watch P} {b : Block P}

/-- Watching does not change what happens. -/
theorem connection_syncBlock (w : Watch P) (b : Block P) :
    (w.syncBlock b).1.connection = (w.connection.syncBlock b).1 ∧
      (w.syncBlock b).2 = (w.connection.syncBlock b).2 := by
  refine ⟨?_, rfl⟩
  simp only [syncBlock]
  split_ifs <;> rfl

theorem connection_syncBlocks (bs : List (Block P)) (w : Watch P) :
    (syncBlocks bs w).connection = (Connection.syncBlocks bs w.connection).1 := by
  induction bs generalizing w with
  | nil => rfl
  | cons b bs ih =>
      obtain ⟨hconnection, hgoes⟩ := connection_syncBlock w b
      simp only [syncBlocks, Connection.syncBlocks]
      generalize w.syncBlock b = step at hconnection hgoes ⊢
      generalize w.connection.syncBlock b = step' at hconnection hgoes ⊢
      obtain ⟨w', goes⟩ := step
      obtain ⟨c', goes'⟩ := step'
      obtain rfl : w'.connection = c' := hconnection
      obtain rfl : goes = goes' := hgoes
      cases goes with
      | true => exact ih w'
      | false => rfl

theorem connection_receive (w : Watch P) (m : P2pMessage P) :
    (w.receive m).connection = (w.connection.handle m).1 := by
  cases m with
  | blocksBatch blocks hasMore => exact connection_syncBlocks blocks w
  | _ =>
      simp only [receive, moved]
      split_ifs <;> rfl

/-- The connection of a watched run is the one that handles the messages one after another. -/
theorem connection_run (s : ChainState P) (ms : List (P2pMessage P)) :
    (run s ms).connection = ms.foldl (fun c m => (c.handle m).1) ⟨s, .idle⟩ := by
  suffices h : ∀ w : Watch P, (ms.foldl receive w).connection =
      ms.foldl (fun c m => (c.handle m).1) w.connection from h (start s)
  induction ms with
  | nil => exact fun w => rfl
  | cons m ms ih =>
      intro w
      rw [List.foldl_cons, List.foldl_cons, ih, connection_receive]

/-! ## Rules for runs

The record is opened here and not again: three cases for a block, two for any other message, and the
induction over a batch. -/

/-- What one block of a batch does to the record. -/
theorem syncBlock_cases (w : Watch P) (b : Block P) :
    ((w.syncBlock b).1.connection.session.aggregateMode = false ∧ (w.syncBlock b).1.folded = []) ∨
    (w.connection.session.aggregateMode = true ∧ w.connection.session.links b = true ∧
      (w.syncBlock b).1 = ⟨{ w.connection with session := w.connection.session.fold b }, w.entry,
        w.folded ++ [b]⟩) ∨
    (w.connection.session.aggregateMode = false ∧
      (w.connection.chain.applyBlock b).2.isApplied = false ∧
      b.header.prevHash = (w.connection.chain.applyBlock b).1.lastBlockHash ∧
      (w.syncBlock b).1 = ⟨⟨(w.connection.chain.applyBlock b).1,
        (Session.fallBack (w.connection.chain.applyBlock b).1).fold b⟩,
        (w.connection.chain.applyBlock b).1, [b]⟩) := by
  have hstep := Connection.syncStep_syncBlock w.connection b
  simp only [syncBlock]
  generalize w.connection.syncBlock b = step at hstep ⊢
  cases hstep with
  | folded hmode hlinks =>
      refine .inr (.inl ⟨hmode, hlinks, ?_⟩)
      simp [Session.fold, hmode]
  | aborted hmode hlinks => exact .inl ⟨rfl, rfl⟩
  | applied hmode happlied => simp [hmode]
  | fellBack hmode happlied hprev hchain =>
      refine .inr (.inr ⟨hmode, happlied, hprev, ?_⟩)
      simp [Session.fold, Session.fallBack, hmode]
  | stopped hmode happlied hnot => simp [hmode]

/-- The chain is left alone, or the block is delivered to it. -/
theorem chain_syncBlock (w : Watch P) (b : Block P) :
    (w.syncBlock b).1.connection.chain = w.connection.chain ∨
      (w.syncBlock b).1.connection.chain = (w.connection.chain.applyBlock b).1 := by
  have hstep := Connection.syncStep_syncBlock w.connection b
  rw [(connection_syncBlock w b).1]
  generalize w.connection.syncBlock b = step at hstep ⊢
  cases hstep with
  | folded _ _ => exact .inl rfl
  | aborted _ _ => exact .inl rfl
  | applied _ _ => exact .inr rfl
  | fellBack _ _ _ _ => exact .inr rfl
  | stopped _ _ _ => exact .inr rfl

/-- A folded block was folded before, or is this one. -/
theorem mem_folded_syncBlock {x : Block P} (hx : x ∈ (w.syncBlock b).1.folded) :
    x ∈ w.folded ∨ x = b := by
  rcases w.syncBlock_cases b with ⟨-, hfolded⟩ | ⟨-, -, heq⟩ | ⟨-, -, -, heq⟩
  · rw [hfolded] at hx
    cases hx
  · rw [heq] at hx
    simpa using hx
  · rw [heq] at hx
    exact .inr (List.mem_singleton.mp hx)

/-- Every other message leaves the sync as it is or ends it. -/
theorem receive_cases (w : Watch P) {m : P2pMessage P} (hm : ∀ bs more, m ≠ .blocksBatch bs more) :
    ((w.receive m).connection.session.aggregateMode = false ∧ (w.receive m).folded = []) ∨
    ((w.receive m).connection.session = w.connection.session ∧ (w.receive m).entry = w.entry ∧
      (w.receive m).folded = w.folded) := by
  have hreceive : w.receive m = w.moved (w.connection.handle m).1 := by
    cases m with
    | blocksBatch bs more => exact absurd rfl (hm bs more)
    | _ => rfl
  have hsession : (w.connection.handle m).1.session = w.connection.session ∨
      (w.connection.handle m).1.session.aggregateMode = false := by
    cases m with
    | blocksBatch bs more => exact absurd rfl (hm bs more)
    | utxoSnapshot utxos height tipHash =>
        simp only [Connection.handle]
        split_ifs
        · exact .inr rfl
        · exact .inr rfl
        · exact .inl rfl
    | _ => exact .inl rfl
  rw [hreceive]
  unfold moved
  split_ifs with hmode
  · rw [hmode] at hsession
    exact .inr ⟨hsession.resolve_right (by simp), rfl, rfl⟩
  · exact .inl ⟨by simpa using hmode, rfl⟩

/-- An invariant that survives one block of a batch survives the batch. -/
theorem syncBlocks_induct {R : Block P → Prop} {motive : Watch P → Prop} {bs : List (Block P)}
    (hw : motive w) (hbs : ∀ b ∈ bs, R b)
    (block : ∀ {w b}, motive w → R b → motive (w.syncBlock b).1) : motive (syncBlocks bs w) := by
  induction bs generalizing w with
  | nil => exact hw
  | cons b bs ih =>
      obtain ⟨hb, hbs⟩ := List.forall_mem_cons.mp hbs
      have hnext := block hw hb
      unfold syncBlocks
      generalize w.syncBlock b = step at hnext ⊢
      obtain ⟨w', goes⟩ := step
      cases goes with
      | true => exact ih hnext hbs
      | false => exact hnext

/-! ## The chain that is folded

The handlers compare the `prev_hash` of each block with the hash of the last. That makes the folded blocks a
path on top of the chain. -/

/-- What the handlers make sure of during an aggregate sync: the folded blocks are linked, from the
tip at which the node fell back on, and the next one has to follow the last. -/
structure Folding (w : Watch P) : Prop where
  linked : w.folded.IsChain Follows
  first : ∀ b ∈ w.folded.head?, b.header.prevHash = w.entry.lastBlockHash
  last : w.connection.session.aggregateMode = true → ∃ b, w.folded.getLast? = some b ∧
    w.connection.session.aggregatePrevHash = some b.hash

theorem folding_idle (hmode : w.connection.session.aggregateMode = false) (hfolded : w.folded = []) :
    Folding w := by
  refine ⟨?_, ?_, ?_⟩
  · rw [hfolded]
    exact List.IsChain.nil
  · rw [hfolded]
    simp
  · rw [hmode]
    simp

/-- What the structural check compares a block with. -/
theorem Folding.follows (h : Folding w) (hmode : w.connection.session.aggregateMode = true)
    (hlinks : w.connection.session.links b = true) :
    ∃ last, w.folded.getLast? = some last ∧ Follows last b := by
  obtain ⟨last, hlast, hhash⟩ := h.last hmode
  simp only [Session.links, hhash, Option.any_some, Bool.and_eq_true, beq_iff_eq] at hlinks
  exact ⟨last, hlast, hlinks.1⟩

theorem Folding.syncBlock (h : Folding w) (b : Block P) : Folding (w.syncBlock b).1 := by
  rcases w.syncBlock_cases b with ⟨hmode, hfolded⟩ | ⟨hmode, hlinks, heq⟩ | ⟨-, -, hprev, heq⟩
  · exact folding_idle hmode hfolded
  · obtain ⟨last, hlast, hfollows⟩ := h.follows hmode hlinks
    rw [heq]
    refine ⟨?_, ?_, fun _ => ⟨b, List.getLast?_concat, rfl⟩⟩
    · apply h.linked.append (List.IsChain.singleton b)
      intro x hx y hy
      rw [hlast] at hx
      obtain rfl := Option.some.inj hx
      obtain rfl := Option.some.inj hy
      exact hfollows
    · intro x hx
      apply h.first x
      cases hf : w.folded with
      | nil =>
          rw [hf] at hlast
          cases hlast
      | cons y ys => simpa [hf] using hx
  · rw [heq]
    refine ⟨List.IsChain.singleton b, ?_, fun _ => ⟨b, rfl, rfl⟩⟩
    intro x hx
    obtain rfl := Option.some.inj hx
    exact hprev

theorem Folding.receive {m : P2pMessage P} (hm : ∀ bs more, m ≠ .blocksBatch bs more)
    (h : Folding w) : Folding (w.receive m) := by
  rcases w.receive_cases hm with ⟨hmode, hfolded⟩ | ⟨hsession, hentry, hfolded⟩
  · exact folding_idle hmode hfolded
  · constructor
    · rw [hfolded]
      exact h.linked
    · rw [hfolded, hentry]
      exact h.first
    · rw [hfolded, hsession]
      exact h.last

/-! ## What an adopted snapshot should be

`Bound` and `Known` are what one would expect of a snapshot. The handler checks neither: it sums up
commitments. -/

/-- The heights of the folded blocks go on from the tip at which the node fell back. -/
def Climbs (w : Watch P) : Prop :=
  ∀ i b, w.folded[i]? = some b → b.height.toNat = w.entry.currentHeight.toNat + i + 1

/-- The snapshot names the last folded block, and the folded blocks go on from the tip at which the
node fell back. -/
structure Bound (w : Watch P) (height : UInt64) (tipHash : Bytes32) : Prop where
  last : ∃ b, w.folded.getLast? = some b ∧ tipHash = b.hash ∧ height = b.height
  linked : w.folded.IsChain Follows
  first : ∀ b ∈ w.folded.head?, b.header.prevHash = w.entry.lastBlockHash
  climbs : Climbs w

/-- The commitment was unspent when the node fell back, or a folded block carries it as an output with
a range proof that verifies. -/
def Known (w : Watch P) (c : Commitment P) : Prop :=
  c ∈ w.entry.utxos ∨ ∃ b ∈ w.folded, ∃ o ∈ b.outputs,
    o.commitment = c ∧ verifyRangeProof o.proof o.commitment = true

/-- Heights go on when each block is one higher than the block it names: the one folded before, or the
local tip. -/
theorem Climbs.syncBlock (hfolding : Folding w) (h : Climbs w)
    (hparent : ∀ parent ∈ w.folded.getLast?, Follows parent b →
      b.height.toNat = parent.height.toNat + 1)
    (htip : b.header.prevHash = w.connection.chain.lastBlockHash →
      b.height.toNat = w.connection.chain.currentHeight.toNat + 1) :
    Climbs (w.syncBlock b).1 := by
  -- not folding, one more block, or the first one
  rcases w.syncBlock_cases b with ⟨-, hfolded⟩ | ⟨hmode, hlinks, heq⟩ | ⟨hmode, hrejected, hprev, heq⟩
  · intro i x hx
    rw [hfolded] at hx
    cases hx
  · obtain ⟨last, hlast, hfollows⟩ := hfolding.follows hmode hlinks
    have hheight := hparent last hlast hfollows
    rw [List.getLast?_eq_getElem?] at hlast
    have hlen : w.folded.length - 1 < w.folded.length := (List.getElem?_eq_some_iff.mp hlast).1
    have hlastHeight := h _ last hlast
    rw [heq]
    intro i x hx
    rw [List.getElem?_append] at hx
    split at hx
    · exact h i x hx
    next hi =>
      rw [List.getElem?_singleton] at hx
      split at hx
      -- the new block, behind the ones that are folded
      next hzero =>
        obtain rfl := Option.some.inj hx
        show b.height.toNat = w.entry.currentHeight.toNat + i + 1
        omega
      next => cases hx
  · obtain ⟨htipHash, hheight, -⟩ := Connection.tip_of_rejected hrejected
    rw [heq]
    intro i x hx
    rw [List.getElem?_singleton] at hx
    split at hx
    next hzero =>
      obtain rfl := Option.some.inj hx
      show b.height.toNat = (w.connection.chain.applyBlock b).1.currentHeight.toNat + i + 1
      rw [hheight, hzero]
      exact htip (hprev.trans htipHash)
    next => cases hx

end Watch

namespace Devnet

open ChainState

/-! ## A forged snapshot

The devnet's genesis block, one empty block on top of it, and a snapshot of another chain that does not
exist. -/

/-- An empty block of height 1. -/
@[irreducible] def emptyBlock : Block crypto :=
  draft (linear [genesis]) (genesisDefault crypto) ⟨[], [], []⟩

/-- The rewards of five heights, in one coin that no block has created. -/
def inventedCoin : Commitment crypto := Commitment.new (P := crypto) 2700 (0 : BitVec 256)

/-- The run of a peer that sends the empty block and then a snapshot of the genesis coins and the
invented one, at height 5 and with a tip hash of its choice. -/
@[irreducible] def forgedRun : Watch crypto :=
  Watch.run (linear [genesis]) [.blocksBatch [emptyBlock] false]

@[irreducible] def forgedCoins : Multiset (Commitment crypto) :=
  ↑(genesis.created ++ [inventedCoin])

theorem forged_snapshot_unbound :
    forgedRun.connection.accepts forgedCoins 5 = true ∧
      (forgedRun.connection.handle (.utxoSnapshot forgedCoins 5 (natBytes 7))).1.chain.currentHeight = 5
      ∧ ¬ Watch.Bound forgedRun 5 (natBytes 7) := by
  have hrun : forgedRun.connection.accepts forgedCoins 5 = true ∧
      (forgedRun.connection.handle (.utxoSnapshot forgedCoins 5 (natBytes 7))).1.chain.currentHeight = 5
      ∧ ∀ b ∈ forgedRun.folded.getLast?, b.height = 1 := by
    decide +kernel
  obtain ⟨haccepts, hheight, hlast⟩ := hrun
  refine ⟨haccepts, hheight, ?_⟩
  rintro ⟨⟨b, hb, -, hb5⟩, -⟩
  have hb1 := hlast b hb
  rw [← hb5] at hb1
  cases hb1

theorem forged_coin_unknown :
    inventedCoin ∈ (forgedRun.connection.handle (.utxoSnapshot forgedCoins 5 (natBytes 7))).1.chain.utxos
      ∧ ¬ Watch.Known forgedRun inventedCoin := by
  have hrun : inventedCoin ∈
        (forgedRun.connection.handle (.utxoSnapshot forgedCoins 5 (natBytes 7))).1.chain.utxos ∧
      inventedCoin ∉ forgedRun.entry.utxos ∧ ∀ b ∈ forgedRun.folded, b.outputs.length = 0 := by
    decide +kernel
  obtain ⟨hmem, hentry, hfolded⟩ := hrun
  refine ⟨hmem, ?_⟩
  rintro (hc | ⟨b, hb, o, ho, -⟩)
  · exact hentry hc
  · rw [List.length_eq_zero_iff.mp (hfolded b hb)] at ho
    cases ho

end Devnet

end Haze
