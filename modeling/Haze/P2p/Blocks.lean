import Haze.Chain.Anchor
import Haze.Chain.Compaction
import Haze.Chain.Undo
import Haze.Lib.Rumor
import Haze.P2p.Session
import Haze.Proposer.Round

/-!
# Gossip of blocks (`p2p/src/server.rs`, `proposer.rs`)

The `NewBlock` arm of `handle_peer_connection` broadcasts a block if `apply_block` took it, and the
proposer broadcasts the block that it has put on its own chain. What a node takes is higher than what it
has, and becomes what it has: that is what ends the flood of a block, which the arm itself does nothing
about. The network is `Flood` over the graph of connections with the other things that move a node's
chain: proposing, the blocks of a sync, the snapshot at the end of one, and compaction.

A genesis block is the exception. It leaves the height at 0, so nothing here is said of deliveries of
blocks of height 0, which no node sends.
-/

namespace Haze

open Checked

variable {P : Crypto}

/-! ## Heights

A block that is taken is the new tip, so the height it leaves is its own, and that was higher. A node that
is delivered a block of its height or below therefore does not take it, which is what keeps a block from
being broadcast twice. -/

namespace ChainState

variable {s s' : ChainState P} {b : Block P}

theorem currentHeight_applyAll {fork : List (Block P)} {deltas : List (AppliedDelta P)}
    (hlast : fork.getLast? = some b) (h : applyAll fork s = some (s', deltas)) :
    s'.currentHeight = b.height := by
  induction fork generalizing s deltas with
  | nil => cases hlast
  | cons x fork ih =>
      simp only [applyAll, Option.bind_eq_bind, Option.bind_eq_some_iff, Option.pure_def,
        Option.some.injEq] at h
      obtain ⟨⟨s₁, delta⟩, hlinear, ⟨s₂, rest⟩, hrest, heq⟩ := h
      obtain ⟨rfl, rfl⟩ := Prod.mk.inj heq
      cases fork with
      | nil =>
          cases hrest
          obtain rfl : x = b := Option.some.inj hlast
          obtain ⟨c, -, hcommit⟩ := applyLinearBlock_eq_some_iff.mp hlinear
          obtain rfl : (s.commitBlock x c).1 = s₁ := congrArg Prod.fst hcommit
          rfl
      | cons y fork => exact ih hlast hrest

/-- A block that is taken is the new height; one that is not leaves the height as it was. -/
theorem currentHeight_applyBlock (s : ChainState P) (b : Block P) :
    (s.applyBlock b).1.currentHeight =
      if (s.applyBlock b).2.isApplied then b.height else s.currentHeight := by
  have houtcome := outcome_applyBlock s b
  generalize s.applyBlock b = r at houtcome ⊢
  cases houtcome with
  | invalid _ => rfl
  | refused _ => rfl
  | linear _ hlinear =>
      obtain ⟨c, -, hcommit⟩ := applyLinearBlock_eq_some_iff.mp hlinear
      obtain rfl := congrArg Prod.fst hcommit
      rfl
  | reorg _ _ hpath _ happly => exact currentHeight_applyAll (getLast?_reorgWalk rfl hpath) happly

/-- Above genesis, a block that is taken is higher than the chain was. -/
theorem currentHeight_lt_of_isApplied (hpos : b.height ≠ 0)
    (h : (s.applyBlock b).2.isApplied = true) : s.currentHeight < b.height := by
  have houtcome := outcome_applyBlock s b
  generalize s.applyBlock b = r at houtcome h
  cases houtcome with
  | invalid _ => cases h
  | refused _ => cases h
  | linear _ hlinear =>
      obtain ⟨c, hcheck, -⟩ := applyLinearBlock_eq_some_iff.mp hlinear
      exact (accepted_of_checkBlock hcheck).currentHeight_lt hpos
  | reorg hheight _ _ _ _ => exact hheight

/-- The height never comes down. -/
theorem currentHeight_le_applyBlock (s : ChainState P) (b : Block P) :
    s.currentHeight ≤ (s.applyBlock b).1.currentHeight := by
  have hheight := currentHeight_applyBlock s b
  by_cases happlied : (s.applyBlock b).2.isApplied = true
  · rw [hheight, if_pos happlied]
    have houtcome := outcome_applyBlock s b
    generalize s.applyBlock b = r at houtcome happlied
    cases houtcome with
    | invalid _ => cases happlied
    | refused _ => cases happlied
    | linear _ hlinear =>
        obtain ⟨c, hcheck, -⟩ := applyLinearBlock_eq_some_iff.mp hlinear
        exact (accepted_of_checkBlock hcheck).currentHeight_le
    | reorg hheight _ _ _ _ => exact UInt64.le_of_lt hheight
  · rw [hheight, if_neg happlied]
    exact UInt64.le_refl _

end ChainState

/-- A round leaves chain and mempool alone, or gives the block that was assembled to `apply_block`. -/
theorem Proposer.round_cases (e : Env P) (s : ChainState P) (m : Mempool P) :
    round e s m = ((s, m), none) ∨
      ∃ validator, myValidator e s = some validator ∧ eligible e s validator = true ∧
        round e s m =
          (((s.applyBlock (assembleBlock e s (drain m).1 validator)).1, (drain m).2),
            some (assembleBlock e s (drain m).1 validator,
              (s.applyBlock (assembleBlock e s (drain m).1 validator)).2)) := by
  unfold round
  split
  · exact .inl rfl
  next validator hvalidator =>
    cases heligible : eligible e s validator with
    | false => exact .inl rfl
    | true => exact .inr ⟨validator, hvalidator, heligible, rfl⟩

/-- A proposal is never a genesis block that its own chain takes. -/
theorem Proposer.height_assembleBlock_ne_zero {e : Env P} {s : ChainState P} {d : Drained P}
    {validator : Validator P} (h : (s.applyBlock (assembleBlock e s d validator)).2.isApplied = true) :
    (assembleBlock e s d validator).height ≠ 0 := by
  intro hzero
  have hle := s.currentHeight_le_applyBlock (assembleBlock e s d validator)
  rw [ChainState.currentHeight_applyBlock, if_pos h, hzero, UInt64.le_iff_toNat_le,
    UInt64.toNat_zero] at hle
  have hcurrent : s.currentHeight = 0 := UInt64.toNat_inj.mp (Nat.le_zero.mp hle)
  have hnext : s.currentHeight + 1 = 0 := hzero
  rw [hcurrent] at hnext
  exact absurd hnext (by decide)

/-! ## The network

The parts of a node that move its chain, as the flood library wants them: what a delivery does, and what
else may happen. Only adoptions can lower a height. -/

/-- The `NewBlock` arm: the chain afterwards, and whether the block is broadcast. -/
def handleNewBlock (chain : ChainState P) (block : Block P) : ChainState P × Bool :=
  let (chain, result) := chain.applyBlock block
  (chain, result.isApplied)

/-- What else moves a node's chain. -/
inductive ChainAct (P : Crypto) where
  /-- A pass of the proposer's loop, on what is pending then. -/
  | propose (e : Proposer.Env P) (pending : Mempool P)
  /-- An iteration over the blocks of a batch. -/
  | syncBlock (block : Block P)
  /-- A snapshot that passed its check. -/
  | adopt (utxos : Multiset (Commitment P)) (height : UInt64) (tipHash : Bytes32)
  | compact (order : List Bytes32) (horizon : UInt64)

/-- The chain after it, and the block that is broadcast. The proposer broadcasts when `apply_block` put
its block on the tip. -/
def ChainAct.run (chain : ChainState P) : ChainAct P → ChainState P × Option (Block P)
  | .propose e pending =>
      let ((chain, _), proposed) := Proposer.round e chain pending
      (chain, proposed.bind fun
        | (block, .linear _) => some block
        | _ => none)
  | .syncBlock block => ((chain.applyBlock block).1, none)
  | .adopt utxos height tipHash => (Connection.adopt chain utxos height tipHash, none)
  | .compact order horizon => ((chain.compact order horizon).1, none)

def ChainAct.isAdoption : ChainAct P → Bool
  | .adopt _ _ _ => true
  | _ => false

def blockProtocol (P : Crypto) : Protocol (ChainState P) (Block P) (ChainAct P) :=
  ⟨handleNewBlock, ChainAct.run⟩

theorem ChainAct.height_run (s : ChainState P) {a : ChainAct P} (ha : a.isAdoption = false) :
    s.currentHeight ≤ (a.run s).1.currentHeight := by
  cases a with
  | propose e pending =>
      simp only [run]
      rcases Proposer.round_cases e s pending with hidle | ⟨validator, -, -, hround⟩
      · rw [hidle]
        exact UInt64.le_refl _
      · rw [hround]
        exact s.currentHeight_le_applyBlock _
  | syncBlock block => exact s.currentHeight_le_applyBlock block
  | adopt _ _ _ => cases ha
  | compact order horizon => exact UInt64.le_refl _

/-- The block of a proposer that has put it on its chain. -/
theorem ChainAct.sent_run {s : ChainState P} {a : ChainAct P} {b : Block P}
    (h : (a.run s).2 = some b) :
    (∃ δ, (s.applyBlock b).2 = .linear δ) ∧ b.height ≠ 0 ∧ (a.run s).1 = (s.applyBlock b).1 := by
  cases a with
  | propose e pending =>
      simp only [run] at h ⊢
      rcases Proposer.round_cases e s pending with hidle | ⟨validator, -, -, hround⟩
      · rw [hidle] at h
        cases h
      · rw [hround] at h ⊢
        simp only [Option.bind_some] at h ⊢
        split at h
        next hresult =>
          cases h
          obtain ⟨rfl, hlinear⟩ := Prod.mk.inj hresult
          have happlied := congrArg ApplyResult.isApplied hlinear
          exact ⟨⟨_, hlinear⟩, Proposer.height_assembleBlock_ne_zero happlied, rfl⟩
        · cases h
  | syncBlock _ => cases h
  | adopt _ _ _ => cases h
  | compact _ _ => cases h

/-- What a node sends is a block that its chain has just taken. -/
theorem blockProtocol_sent {may : ChainAct P → Prop} {s s' : ChainState P} {b : Block P}
    (h : (blockProtocol P).Move (fun b => b.height ≠ 0) may s s' (some b)) :
    s.currentHeight < b.height ∧ s'.currentHeight = b.height := by
  have htaken : (s.applyBlock b).2.isApplied = true ∧ b.height ≠ 0 ∧ s' = (s.applyBlock b).1 := by
    generalize hsent : some b = sent at h
    cases h with
    | @react m hm =>
        split at hsent
        · next happlied =>
          cases hsent
          exact ⟨happlied, hm, rfl⟩
        · cases hsent
    | act ha =>
        obtain ⟨⟨δ, hlinear⟩, hpos, hstate⟩ := ChainAct.sent_run hsent.symm
        exact ⟨congrArg ApplyResult.isApplied hlinear, hpos, hstate⟩
  obtain ⟨happlied, hpos, rfl⟩ := htaken
  refine ⟨ChainState.currentHeight_lt_of_isApplied hpos happlied, ?_⟩
  rw [ChainState.currentHeight_applyBlock, if_pos happlied]

/-- Without adoptions the height never comes down. -/
theorem blockProtocol_height {ok : Block P → Prop} {s s' : ChainState P} {sent : Option (Block P)}
    (h : (blockProtocol P).Move ok (fun a => a.isAdoption = false) s s' sent) :
    s.currentHeight ≤ s'.currentHeight := by
  cases h with
  | @react m _ => exact s.currentHeight_le_applyBlock m
  | act ha => exact ChainAct.height_run s ha

/-- A node has reached a height. -/
def reached (s : ChainState P) (height : UInt64) : Prop := height ≤ s.currentHeight

instance (s : ChainState P) (height : UInt64) : Decidable (reached s height) :=
  inferInstanceAs (Decidable (height ≤ s.currentHeight))

theorem blockProtocol_wary (may : ChainAct P → Prop) (height : UInt64) :
    (blockProtocol P).Wary (fun b => b.height ≠ 0) may Block.height reached height := by
  intro s s' b hmove hheight
  obtain ⟨hlt, heq⟩ := blockProtocol_sent hmove
  rw [reached, reached, heq, ← hheight, UInt64.not_le]
  exact ⟨hlt, UInt64.le_refl _⟩

theorem blockProtocol_climbs (may : ChainAct P → Prop) :
    (blockProtocol P).Climbs (fun b => b.height ≠ 0) may fun s => s.currentHeight.toNat := by
  intro s s' b hmove
  obtain ⟨hlt, heq⟩ := blockProtocol_sent hmove
  rw [← heq] at hlt
  exact UInt64.lt_iff_toNat_lt.mp hlt

section Network

open Flood

variable {V : Type}

/-- The blocks that are delivered are above genesis. -/
def AboveGenesis (events : List (Event V (Block P) (ChainAct P))) : Prop :=
  ∀ v b, Event.deliver v b ∈ events → b.height ≠ 0

/-- No node adopts a snapshot. -/
def WithoutAdoption (events : List (Event V (Block P) (ChainAct P))) : Prop :=
  ∀ v a, Event.act v a ∈ events → a.isAdoption = false

theorem AboveGenesis.within {events : List (Event V (Block P) (ChainAct P))}
    {may : ChainAct P → Prop} (h : AboveGenesis events)
    (hmay : ∀ v a, Event.act v a ∈ events → may a) :
    ∀ e ∈ events, e.Within (fun b => b.height ≠ 0) may := by
  intro e he
  cases e with
  | deliver v b => exact h v b he
  | act v a => exact hmay v a he
  | lose _ _ => trivial
  | inject _ _ => trivial

variable [Fintype V] [DecidableEq V] [DecidableEq (Block P)] {G : SimpleGraph V} [DecidableRel G.Adj]
  {net net' : Flood V (ChainState P) (Block P)} {events : List (Event V (Block P) (ChainAct P))}

/-- **The flood of a block ends.** In whatever order blocks are delivered, lost, injected, proposed and
synced, a node broadcasts blocks of one height at most once more than its chain was taken below that
height by a snapshot, and the deliveries are paid for by what was under way, what came from outside and
the heights the nodes gained. Without snapshots each node broadcasts one block of each height it
reaches at most. -/
theorem block_gossip_ends (hevents : AboveGenesis events)
    (h : net.history G (blockProtocol P) events = some net') :
    (∀ v height, net'.sends Block.height v height ≤
        net.sends Block.height v height + drops G (blockProtocol P) reached v height net events + 1) ∧
      events.countP Event.isDelivery + net'.inFlight.card ≤
        net.inFlight.card + events.countP Event.isInjection +
          ∑ v, G.degree v * rise G (blockProtocol P) (fun s => s.currentHeight.toNat) v net events ∧
      (WithoutAdoption events →
        (∀ v height, net'.sends Block.height v height ≤ net.sends Block.height v height + 1) ∧
          events.countP Event.isDelivery + net'.inFlight.card ≤
            net.inFlight.card + events.countP Event.isInjection +
              ∑ v, G.degree v *
                ((net'.nodes v).currentHeight.toNat - (net.nodes v).currentHeight.toNat)) := by
  have hwithin : ∀ e ∈ events, e.Within (fun b => b.height ≠ 0) fun _ => True :=
    hevents.within fun _ _ _ => trivial
  have honce : ∀ v height, net'.sends Block.height v height ≤
      net.sends Block.height v height + drops G (blockProtocol P) reached v height net events + 1 := by
    intro v height
    have hle := sends_le (v := v) (blockProtocol_wary _ height) hwithin h
    -- the rule of the library counts a block as sent while the node's height is below it
    split at hle <;> split at hle <;> omega
  have htraffic := deliveries_le (blockProtocol_climbs _) hwithin h
  refine ⟨honce, htraffic, ?_⟩
  intro hadoption
  have hwithin' := hevents.within hadoption
  constructor
  · intro v height
    -- without adoptions no height falls
    have hdrops : drops G (blockProtocol P) reached v height net events = 0 :=
      drops_eq_zero (fun _ _ _ hmove hreached => UInt64.le_trans hreached (blockProtocol_height hmove))
        hwithin' h
    simpa [hdrops] using honce v height
  · have hrise : ∀ v, rise G (blockProtocol P) (fun s => s.currentHeight.toNat) v net events =
        (net'.nodes v).currentHeight.toNat - (net.nodes v).currentHeight.toNat := by
      intro v
      have hsum : (net.nodes v).currentHeight.toNat +
          rise G (blockProtocol P) (fun s => s.currentHeight.toNat) v net events =
            (net'.nodes v).currentHeight.toNat :=
        rise_eq (fun _ _ _ hmove => UInt64.le_iff_toNat_le.mp (blockProtocol_height hmove)) hwithin' h
      omega
    simpa only [hrise] using htraffic

/-- Between two nodes a block that both can take goes from the first to the second. -/
theorem exists_relay {s : ChainState P} {b : Block P} (h : (s.applyBlock b).2.isApplied = true) :
    ∃ net', (Flood.mk (fun _ : Bool => s) 0 []).history ⊤ (blockProtocol P)
      [.inject true b, .deliver true b, .deliver false b] = some net' := by
  have hadj : (⊤ : SimpleGraph Bool).Adj true false := by simp
  have hforward : ((blockProtocol P).react ((inject (fun _ : Bool => s) true b).nodes true) b).2 = true :=
    h
  obtain ⟨net₁, hdel, hflight, -⟩ := deliver_forward (G := (⊤ : SimpleGraph Bool))
    (Multiset.mem_singleton_self (true, b)) hforward
  have hmem : (false, b) ∈ net₁.inFlight := by
    rw [hflight]
    exact Multiset.mem_add.mpr (.inr (mem_broadcast hadj b))
  obtain ⟨net₂, hdel₂⟩ : ∃ net₂, net₁.deliver ⊤ (blockProtocol P).react (false, b) = some net₂ :=
    ⟨_, if_pos hmem⟩
  refine ⟨net₂, ?_⟩
  have hinject : (Flood.mk (fun _ : Bool => s) 0 []).step ⊤ (blockProtocol P) (.inject true b) =
      some (inject (fun _ : Bool => s) true b) := rfl
  rw [history_cons, hinject, Option.bind_some, history_cons, step, hdel, Option.bind_some,
    history_cons, step, hdel₂]
  rfl

end Network

namespace Devnet

open Flood

theorem honestBlock_applied :
    ((ChainState.deliver [genesis]).applyBlock honestBlock).2.isApplied = true := by
  decide +kernel

/-- Two nodes: a block comes to the first, which sends it to the second. -/
@[irreducible] def honestEvents : List (Event Bool (Block crypto) (ChainAct crypto)) :=
  [.inject true honestBlock, .deliver true honestBlock, .deliver false honestBlock]

open scoped Classical in
theorem honestBlock_gossip :
    ∃ net', (Flood.mk (fun _ : Bool => ChainState.deliver [genesis]) 0 []).history ⊤
        (blockProtocol crypto) honestEvents = some net' ∧
      ∀ v height, net'.sends Block.height v height ≤ 1 := by
  have hhistory : ∃ net', (Flood.mk (fun _ : Bool => ChainState.deliver [genesis]) 0 []).history ⊤
      (blockProtocol crypto) honestEvents = some net' := by
    rw [honestEvents]
    exact exists_relay honestBlock_applied
  obtain ⟨net', hrun⟩ := hhistory
  have hpos := UInt64.pos_iff_ne_zero.mp honestBlock_accepted.2.1
  have habove : AboveGenesis honestEvents := by
    intro v b hb
    rw [honestEvents, List.mem_cons, List.mem_cons, List.mem_singleton] at hb
    rcases hb with hb | hb | hb
    · cases hb
    · cases hb
      exact hpos
    · cases hb
      exact hpos
  have hwithout : WithoutAdoption honestEvents := by
    intro v a ha
    rw [honestEvents, List.mem_cons, List.mem_cons, List.mem_singleton] at ha
    rcases ha with ha | ha | ha <;> cases ha
  obtain ⟨-, -, hends⟩ := block_gossip_ends habove hrun
  refine ⟨net', hrun, ?_⟩
  intro v height
  simpa [sends] using (hends hwithout).1 v height

end Devnet

end Haze
