import Haze.Lib.Flood
import Mathlib

/-!
# Rumours

`Flood` with a life of its own: besides passing messages on, a node does things of its own accord and
may announce something then (`Protocol`); messages get lost, and come from outside.

What keeps such a network quiet is that a node passes a message on only when it has news. Two forms of
that are rules here. In the first a message has a key, a node holds keys, and it sends a message only
when it did not hold its key and holds it afterwards: it sends a key at most once for each time it
dropped it before (`Wary.sends_le`). In the second a node has a rank that every message it sends
raises: what is delivered is bounded by what came from outside and by how far the ranks rose
(`Climbs.deliveries_le`). `Spreads.holds` is the converse of the first rule: a node that does not hold a
key and is told takes it, so a key reaches everyone.
-/

/-- What a node does with a message, and whether it passes it on; and what it does of its own accord,
and what it announces then. -/
structure Protocol (σ M A : Type) where
  react : σ → M → σ × Bool
  act : σ → A → σ × Option M

section Rules

variable {σ M A K : Type}

/-- What happens at one node: its new state, and the message it sends to its neighbours. The messages
that it receives are of a kind `ok`, and what it does of its own accord is of a kind `may`. -/
inductive Protocol.Move (p : Protocol σ M A) (ok : M → Prop) (may : A → Prop) :
    σ → σ → Option M → Prop
  | react (s : σ) {m : M} (hm : ok m) :
      p.Move ok may s (p.react s m).1 (if (p.react s m).2 then some m else none)
  | act (s : σ) {a : A} (ha : may a) : p.Move ok may s (p.act s a).1 (p.act s a).2

variable (p : Protocol σ M A) (ok : M → Prop) (may : A → Prop)

/-- A node sends a key only when it is news to it: it did not hold it, and holds it afterwards. -/
def Protocol.Wary (key : M → K) (holds : σ → K → Prop) (k : K) : Prop :=
  ∀ s s' m, p.Move ok may s s' (some m) → key m = k → ¬ holds s k ∧ holds s' k

/-- What a node sends raises its rank. -/
def Protocol.Climbs (rank : σ → ℕ) : Prop :=
  ∀ s s' m, p.Move ok may s s' (some m) → rank s < rank s'

/-- A node tells the others of the key when it takes it, in a message that is in order; and a node that
is ready takes the key from a message that is in order. -/
structure Protocol.Spreads (key : M → K) (holds : σ → K → Prop) (k : K) (fit : M → Prop)
    (ready : σ → Prop) : Prop where
  tells : ∀ s s' sent, p.Move ok may s s' sent → ¬ holds s k → holds s' k →
    ∃ m, sent = some m ∧ key m = k ∧ fit m
  takes : ∀ s m, ready s → fit m → key m = k → holds (p.react s m).1 k

end Rules

namespace Flood

variable {V σ M A : Type}

/-- What happens in a network. -/
inductive Event (V M A : Type) where
  | deliver (v : V) (m : M)
  | lose (v : V) (m : M)
  | inject (v : V) (m : M)
  | act (v : V) (a : A)

/-- The messages that are delivered, and what nodes do of their own accord, are of the given kinds. -/
def Event.Within (ok : M → Prop) (may : A → Prop) : Event V M A → Prop
  | .deliver _ m => ok m
  | .act _ a => may a
  | .lose _ _ | .inject _ _ => True

variable [Fintype V] (G : SimpleGraph V) [DecidableRel G.Adj] [DecidableEq V] [DecidableEq M]
variable (p : Protocol σ M A)

def step (net : Flood V σ M) : Event V M A → Option (Flood V σ M)
  | .deliver v m => net.deliver G p.react (v, m)
  | .lose v m =>
      if (v, m) ∈ net.inFlight then some { net with inFlight := net.inFlight.erase (v, m) } else none
  | .inject v m => some { net with inFlight := (v, m) ::ₘ net.inFlight }
  | .act v a =>
      let (state, sent) := p.act (net.nodes v) a
      some
        { nodes := Function.update net.nodes v state
          inFlight := net.inFlight + (sent.elim 0 (broadcast G v))
          forwarded := net.forwarded ++ sent.toList.map (v, ·) }

/-- What happens, one thing after another. -/
def history (net : Flood V σ M) (events : List (Event V M A)) : Option (Flood V σ M) :=
  events.foldlM (step G p) net

variable {G p} {ok : M → Prop} {may : A → Prop} {net net' : Flood V σ M} {events : List (Event V M A)}

theorem history_cons {e : Event V M A} :
    net.history G p (e :: events) = (net.step G p e).bind fun net₁ => net₁.history G p events :=
  rfl

/-- **What a step does.** Either the nodes stay as they are and nothing is sent, or something happens at
one node; messages go out to its neighbours, and others are taken off the network. -/
inductive Step (G : SimpleGraph V) [DecidableRel G.Adj] (p : Protocol σ M A) (ok : M → Prop)
    (may : A → Prop) (net : Flood V σ M) : Event V M A → Flood V σ M → Prop
  | deliver {v : V} {m : M} {s : σ} {sent : Option M} (hm : (v, m) ∈ net.inFlight)
      (hmove : p.Move ok may (net.nodes v) s sent) (hs : s = (p.react (net.nodes v) m).1)
      (hsent : sent = if (p.react (net.nodes v) m).2 then some m else none) :
      Step G p ok may net (.deliver v m)
        { nodes := Function.update net.nodes v s
          inFlight := net.inFlight.erase (v, m) + sent.elim 0 (broadcast G v)
          forwarded := net.forwarded ++ sent.toList.map (v, ·) }
  | lose {v : V} {m : M} (hm : (v, m) ∈ net.inFlight) :
      Step G p ok may net (.lose v m) { net with inFlight := net.inFlight.erase (v, m) }
  | inject (v : V) (m : M) :
      Step G p ok may net (.inject v m) { net with inFlight := (v, m) ::ₘ net.inFlight }
  | act {v : V} (a : A) {s : σ} {sent : Option M} (hmove : p.Move ok may (net.nodes v) s sent)
      (hact : (s, sent) = p.act (net.nodes v) a) :
      Step G p ok may net (.act v a)
        { nodes := Function.update net.nodes v s
          inFlight := net.inFlight + sent.elim 0 (broadcast G v)
          forwarded := net.forwarded ++ sent.toList.map (v, ·) }

theorem step_cases {e : Event V M A} (he : e.Within ok may) (h : net.step G p e = some net') :
    Step G p ok may net e net' := by
  cases e with
  | deliver v m =>
      simp only [step, Flood.deliver] at h
      split at h
      · next hm =>
        cases h
        -- whether the node passes it on decides what is put on the network
        have hmove : p.Move ok may (net.nodes v) _ _ := .react (net.nodes v) he
        have hstep := Step.deliver (G := G) hm hmove rfl rfl
        cases hforward : (p.react (net.nodes v) m).2 with
        | true => simpa [hforward] using hstep
        | false => simpa [hforward] using hstep
      · cases h
  | lose v m =>
      simp only [step] at h
      split at h
      · next hm =>
        cases h
        exact .lose hm
      · cases h
  | inject v m =>
      cases h
      exact .inject v m
  | act v a =>
      cases h
      exact .act a (.act _ he) rfl

/-- What one step does to the nodes and to the record of what was sent. -/
theorem Step.nodes_forwarded {e : Event V M A} (h : Step G p ok may net e net') :
    (net'.nodes = net.nodes ∧ net'.forwarded = net.forwarded) ∨
      ∃ v s sent, p.Move ok may (net.nodes v) s sent ∧ net'.nodes = Function.update net.nodes v s ∧
        net'.forwarded = net.forwarded ++ sent.toList.map (v, ·) := by
  cases h with
  | deliver _ hmove _ _ => exact .inr ⟨_, _, _, hmove, rfl, rfl⟩
  | lose _ => exact .inl ⟨rfl, rfl⟩
  | inject _ _ => exact .inl ⟨rfl, rfl⟩
  | act _ hmove _ => exact .inr ⟨_, _, _, hmove, rfl, rfl⟩

/-- Induction over what happens, from the first thing on. -/
theorem history_induct {motive : List (Event V M A) → Flood V σ M → Prop}
    (stop : motive [] net')
    (next : ∀ e events net₁ net₂, net₁.step G p e = some net₂ → Step G p ok may net₁ e net₂ →
      motive events net₂ → motive (e :: events) net₁)
    (hevents : ∀ e ∈ events, e.Within ok may) (h : net.history G p events = some net') :
    motive events net := by
  induction events generalizing net with
  | nil =>
      cases h
      exact stop
  | cons e events ih =>
      rw [history_cons, Option.bind_eq_some_iff] at h
      obtain ⟨net₁, hstep, hrest⟩ := h
      rw [List.forall_mem_cons] at hevents
      exact next e events net net₁ hstep (step_cases hevents.1 hstep) (ih hevents.2 hrest)

/-! ## Keys

Messages are told apart by a key, and a node holds a key or does not. How often a node has sent a key is
then bounded by how often it came to hold it. -/

section Keys

variable {K : Type} [DecidableEq K] (key : M → K) (holds : σ → K → Prop) [∀ s k, Decidable (holds s k)]

/-- How often a node has sent a key. -/
def sends (net : Flood V σ M) (v : V) (k : K) : ℕ :=
  net.forwarded.countP fun d => d.1 = v ∧ key d.2 = k

variable (G p) in
/-- How often a node lets go of a key. -/
def drops (v : V) (k : K) : Flood V σ M → List (Event V M A) → ℕ
  | _, [] => 0
  | net, e :: events =>
      match net.step G p e with
      | none => 0
      | some net' =>
          (if holds (net.nodes v) k ∧ ¬ holds (net'.nodes v) k then 1 else 0) + drops v k net' events

variable {key holds}

omit [Fintype V] [DecidableEq M] in
theorem sends_of_forwarded {u v : V} {k : K} {sent : Option M}
    (h : net'.forwarded = net.forwarded ++ sent.toList.map (u, ·)) :
    net'.sends key v k = net.sends key v k + if u = v ∧ sent.map key = some k then 1 else 0 := by
  unfold sends
  rw [h, List.countP_append]
  cases sent with
  | none => simp
  | some m => simp [List.countP_singleton]

variable {v : V} {k : K}

/-- A step sends the key, lets go of it or takes it as a node may. -/
theorem Step.sends_le {e : Event V M A} (hp : p.Wary ok may key holds k)
    (h : Step G p ok may net e net') :
    net'.sends key v k + (if holds (net.nodes v) k then 1 else 0) ≤
      net.sends key v k + (if holds (net.nodes v) k ∧ ¬ holds (net'.nodes v) k then 1 else 0) +
        (if holds (net'.nodes v) k then 1 else 0) := by
  -- only the node that moved has sent something, and only one message
  rcases h.nodes_forwarded with ⟨hnodes, hsent⟩ | ⟨u, s, sent, hmove, hnodes, hsent⟩
  · rw [hnodes, sends, hsent, ← sends]
    split <;> simp_all
  rw [sends_of_forwarded hsent, hnodes]
  by_cases huv : u = v
  · subst huv
    rw [Function.update_self]
    -- what it sent has the key in question, and then it has just taken it, or another one
    by_cases hkey : sent.map key = some k
    · obtain ⟨m, rfl, hm⟩ := Option.map_eq_some_iff.mp hkey
      obtain ⟨hbefore, hafter⟩ := hp _ _ _ hmove hm
      simp [hm, hbefore, hafter]
    · by_cases hbefore : holds (net.nodes u) k <;> by_cases hafter : holds s k <;>
        simp [hkey, hbefore, hafter]
  · rw [Function.update_of_ne (Ne.symm huv)]
    split <;> simp_all

/-- And sends a key whenever it takes it, if nodes tell what they take. -/
theorem Step.le_sends {fit : M → Prop} {ready : σ → Prop} {e : Event V M A}
    (hp : p.Spreads ok may key holds k fit ready) (h : Step G p ok may net e net') :
    net.sends key v k + (if holds (net'.nodes v) k then 1 else 0) ≤
      net'.sends key v k + (if holds (net.nodes v) k then 1 else 0) := by
  -- the same cases, with what a node tells when it takes a key
  rcases h.nodes_forwarded with ⟨hnodes, hsent⟩ | ⟨u, s, sent, hmove, hnodes, hsent⟩
  · rw [hnodes, sends, sends, hsent]
  rw [sends_of_forwarded hsent, hnodes]
  by_cases huv : u = v
  · subst huv
    rw [Function.update_self]
    by_cases hbefore : holds (net.nodes u) k
    · rw [if_pos hbefore]
      split <;> omega
    · by_cases hafter : holds s k
      · obtain ⟨m, rfl, hm, -⟩ := hp.tells _ _ _ hmove hbefore hafter
        simp [hafter, hm]
      · rw [if_neg hafter]
        exact Nat.le_add_right_of_le (Nat.le_add_right _ _)
  · rw [Function.update_of_ne (Ne.symm huv)]
    omega

/-- **Once for each time it is dropped.** A node sends a key at most once more than it let go of it. -/
theorem sends_le (hp : p.Wary ok may key holds k) (hevents : ∀ e ∈ events, e.Within ok may)
    (h : net.history G p events = some net') :
    net'.sends key v k + (if holds (net.nodes v) k then 1 else 0) ≤
      net.sends key v k + drops G p holds v k net events +
        (if holds (net'.nodes v) k then 1 else 0) := by
  refine history_induct (motive := fun events net =>
    net'.sends key v k + (if holds (net.nodes v) k then 1 else 0) ≤
      net.sends key v k + drops G p holds v k net events +
        (if holds (net'.nodes v) k then 1 else 0)) ?_ ?_ hevents h
  · simp [drops]
  · intro e events net₁ net₂ hstep hcases ih
    have hfirst := hcases.sends_le (v := v) hp
    simp only [drops, hstep]
    omega

theorem le_sends {fit : M → Prop} {ready : σ → Prop} (hp : p.Spreads ok may key holds k fit ready)
    (hevents : ∀ e ∈ events, e.Within ok may) (h : net.history G p events = some net') :
    net.sends key v k + (if holds (net'.nodes v) k then 1 else 0) ≤
      net'.sends key v k + (if holds (net.nodes v) k then 1 else 0) := by
  refine history_induct (motive := fun _ net =>
    net.sends key v k + (if holds (net'.nodes v) k then 1 else 0) ≤
      net'.sends key v k + (if holds (net.nodes v) k then 1 else 0)) le_rfl ?_ hevents h
  intro e events net₁ net₂ _ hcases ih
  have hfirst := hcases.le_sends (v := v) hp
  omega

omit [DecidableEq K] in
/-- What every move keeps is not dropped. -/
theorem drops_eq_zero (hkeeps : ∀ s s' sent, p.Move ok may s s' sent → holds s k → holds s' k)
    (hevents : ∀ e ∈ events, e.Within ok may) (h : net.history G p events = some net') :
    drops G p holds v k net events = 0 := by
  refine history_induct (motive := fun events net => drops G p holds v k net events = 0) rfl ?_
    hevents h
  intro e events net₁ net₂ hstep hcases ih
  simp only [drops, hstep, ih, Nat.add_zero, ite_eq_right_iff, Nat.one_ne_zero, imp_false, not_and,
    not_not]
  intro hholds
  rcases hcases.nodes_forwarded with ⟨hnodes, -⟩ | ⟨u, s, sent, hmove, hnodes, -⟩
  · rw [hnodes]
    exact hholds
  · rw [hnodes]
    by_cases huv : v = u
    · subst huv
      rw [Function.update_self]
      exact hkeeps _ _ _ hmove hholds
    · rw [Function.update_of_ne huv]
      exact hholds

end Keys

/-! ## Traffic

Each message that is sent makes as many copies as the sender has neighbours. So deliveries are paid for by
what the nodes send, and that by a rank which rises with each sending. -/

section Traffic

def Event.isDelivery : Event V M A → Bool
  | .deliver _ _ => true
  | _ => false

def Event.isInjection : Event V M A → Bool
  | .inject _ _ => true
  | _ => false

variable (G) in
/-- The copies of messages that the network has made. -/
def copies (net : Flood V σ M) : ℕ :=
  (net.forwarded.map fun d => G.degree d.1).sum

variable (G p) in
/-- How far the rank of a node goes up, not counting how far it comes down. -/
def rise (rank : σ → ℕ) (v : V) : Flood V σ M → List (Event V M A) → ℕ
  | _, [] => 0
  | net, e :: events =>
      match net.step G p e with
      | none => 0
      | some net' => (rank (net'.nodes v) - rank (net.nodes v)) + rise rank v net' events

omit [DecidableEq V] [DecidableEq M] in
theorem card_broadcast (v : V) (m : M) : (broadcast G v m).card = G.degree v := by
  rw [broadcast, Multiset.card_map, Finset.card_val, ← SimpleGraph.neighborFinset_eq_filter,
    SimpleGraph.card_neighborFinset_eq_degree]

omit [DecidableEq V] [DecidableEq M] in
theorem card_sent (v : V) (sent : Option M) :
    (sent.elim 0 (broadcast G v)).card = ((sent.toList.map (v, ·)).map fun d => G.degree d.1).sum := by
  cases sent with
  | none => rfl
  | some m => simp [card_broadcast]

/-- What a step takes off the network is made up for by what it puts there. -/
theorem Step.card_inFlight {e : Event V M A} (h : Step G p ok may net e net') :
    (if e.isDelivery then 1 else 0) + net'.inFlight.card + net.copies G ≤
      (if e.isInjection then 1 else 0) + net.inFlight.card + net'.copies G := by
  -- a delivery takes one copy off, and puts on those that the receiver sends
  cases h with
  | deliver hm _ _ _ =>
      have hcard := Multiset.card_erase_add_one hm
      simp only [copies, Event.isDelivery, Event.isInjection, List.map_append, List.sum_append,
        Multiset.card_add, card_sent, if_true, Bool.false_eq_true, if_false]
      omega
  | lose hm =>
      have hcard := Multiset.card_erase_add_one hm
      simp only [copies, Event.isDelivery, Event.isInjection, Bool.false_eq_true, if_false]
      omega
  | inject v m =>
      simp only [copies, Event.isDelivery, Event.isInjection, Multiset.card_cons, if_true,
        Bool.false_eq_true, if_false]
      omega
  | act _ _ _ =>
      simp only [copies, Event.isDelivery, Event.isInjection, List.map_append, List.sum_append,
        Multiset.card_add, card_sent, Bool.false_eq_true, if_false]
      omega

/-- A step that sends something raises the rank of the sender. -/
theorem Step.copies_le {rank : σ → ℕ} {e : Event V M A} (hp : p.Climbs ok may rank)
    (h : Step G p ok may net e net') :
    net'.copies G ≤
      net.copies G + ∑ v, G.degree v * (rank (net'.nodes v) - rank (net.nodes v)) := by
  rcases h.nodes_forwarded with ⟨-, hsent⟩ | ⟨u, s, sent, hmove, hnodes, hsent⟩
  · rw [copies, hsent, ← copies]
    exact Nat.le_add_right _ _
  · rw [copies, hsent, List.map_append, List.sum_append, ← copies]
    apply Nat.add_le_add_left
    -- a step that sends nothing makes no copies; one that does has raised the rank of its node
    cases sent with
    | none => exact Nat.zero_le _
    | some m =>
        have hrank := hp _ _ _ hmove
        have hterm : G.degree u ≤ G.degree u * (rank (net'.nodes u) - rank (net.nodes u)) := by
          rw [hnodes, Function.update_self]
          exact Nat.le_mul_of_pos_right _ (Nat.sub_pos_of_lt hrank)
        have hsum : G.degree u * (rank (net'.nodes u) - rank (net.nodes u)) ≤
            ∑ v, G.degree v * (rank (net'.nodes v) - rank (net.nodes v)) :=
          Finset.single_le_sum (f := fun v => G.degree v * (rank (net'.nodes v) - rank (net.nodes v)))
            (fun _ _ => Nat.zero_le _) (Finset.mem_univ u)
        simpa using hterm.trans hsum

/-- **What is delivered comes from outside or from a rise.** -/
theorem deliveries_le {rank : σ → ℕ} (hp : p.Climbs ok may rank)
    (hevents : ∀ e ∈ events, e.Within ok may) (h : net.history G p events = some net') :
    events.countP Event.isDelivery + net'.inFlight.card ≤
      net.inFlight.card + events.countP Event.isInjection +
        ∑ v, G.degree v * rise G p rank v net events := by
  have hboth : events.countP Event.isDelivery + net'.inFlight.card + net.copies G ≤
      net.inFlight.card + events.countP Event.isInjection + net'.copies G ∧
      net'.copies G ≤ net.copies G + ∑ v, G.degree v * rise G p rank v net events := by
    refine history_induct (motive := fun events net =>
      events.countP Event.isDelivery + net'.inFlight.card + net.copies G ≤
        net.inFlight.card + events.countP Event.isInjection + net'.copies G ∧
        net'.copies G ≤ net.copies G + ∑ v, G.degree v * rise G p rank v net events) ?_ ?_ hevents h
    · simp
    -- the first step and the rest of the run each pay for their own part
    · rintro e events net₁ net₂ hstep hcases ⟨hcards, hcopies'⟩
      have hcard := hcases.card_inFlight
      have hcopies := hcases.copies_le hp
      have hsplit : ∑ v, G.degree v * rise G p rank v net₁ (e :: events) =
          ∑ v, G.degree v * (rank (net₂.nodes v) - rank (net₁.nodes v)) +
            ∑ v, G.degree v * rise G p rank v net₂ events := by
        rw [← Finset.sum_add_distrib]
        refine Finset.sum_congr rfl fun v _ => ?_
        rw [← Nat.mul_add]
        simp only [rise, hstep]
      rw [List.countP_cons, List.countP_cons, hsplit]
      omega
  omega

/-- A rank that never comes down rises from where it was to where it is. -/
theorem rise_eq {rank : σ → ℕ} {v : V}
    (hmono : ∀ s s' sent, p.Move ok may s s' sent → rank s ≤ rank s')
    (hevents : ∀ e ∈ events, e.Within ok may) (h : net.history G p events = some net') :
    rank (net.nodes v) + rise G p rank v net events = rank (net'.nodes v) := by
  refine history_induct (motive := fun events net =>
    rank (net.nodes v) + rise G p rank v net events = rank (net'.nodes v)) rfl ?_ hevents h
  intro e events net₁ net₂ hstep hcases ih
  have hle : rank (net₁.nodes v) ≤ rank (net₂.nodes v) := by
    rcases hcases.nodes_forwarded with ⟨hnodes, -⟩ | ⟨u, s, sent, hmove, hnodes, -⟩
    · rw [hnodes]
    · rw [hnodes]
      by_cases huv : v = u
      · subst huv
        rw [Function.update_self]
        exact hmono _ _ _ hmove
      · rw [Function.update_of_ne huv]
  simp only [rise, hstep]
  omega

end Traffic

/-! ## Everyone is told

Take a network in which whoever takes a key tells its neighbours, and messages of the key are not lost. Then
next to a node that holds the key, a neighbour holds it or has a message on its way (`Told`). -/

section Told

variable {K : Type} {key : M → K} {holds : σ → K → Prop} {k : K} {fit : M → Prop}
  {ready : σ → Prop}

/-- Who holds the key has a neighbour that holds it too or is about to hear of it. -/
def Told (G : SimpleGraph V) (key : M → K) (holds : σ → K → Prop) (fit : M → Prop) (k : K)
    (net : Flood V σ M) : Prop :=
  ∀ u v, G.Adj u v → holds (net.nodes u) k →
    holds (net.nodes v) k ∨ ∃ m, key m = k ∧ fit m ∧ (v, m) ∈ net.inFlight

variable (G p) in
/-- In every state of the history the nodes are ready; no node drops the key, and no message with it is
lost. -/
def Undisturbed (key : M → K) (holds : σ → K → Prop) (ready : σ → Prop) (k : K) :
    Flood V σ M → List (Event V M A) → Prop
  | _, [] => True
  | net, e :: events =>
      (∀ v, ready (net.nodes v)) ∧ (∀ v m, e = .lose v m → key m ≠ k) ∧
        ∀ net', net.step G p e = some net' →
          (∀ v, holds (net.nodes v) k → holds (net'.nodes v) k) ∧
            Undisturbed key holds ready k net' events

/-- Undisturbed, a key is not dropped. -/
theorem Undisturbed.drops_eq_zero [∀ s k, Decidable (holds s k)] {v : V}
    (h : Undisturbed G p key holds ready k net events) : drops G p holds v k net events = 0 := by
  induction events generalizing net with
  | nil => rfl
  | cons e events ih =>
      obtain ⟨-, -, hnext⟩ := h
      simp only [drops]
      split
      · rfl
      next net₁ hstep =>
        obtain ⟨hkeep, hrest⟩ := hnext net₁ hstep
        rw [if_neg (fun hdrop => hdrop.2 (hkeep v hdrop.1)), ih hrest]

omit [DecidableEq M] in
/-- What one node does under the eyes of the others. -/
theorem told_update {v : V} {s : σ} {sent : Option M} {inFlight : Multiset (V × M)}
    {forwarded : List (V × M)} (hp : p.Spreads ok may key holds k fit ready)
    (hmove : p.Move ok may (net.nodes v) s sent)
    (hold : ∀ u w, G.Adj u w → holds (net.nodes u) k → holds (Function.update net.nodes v s w) k ∨
      ∃ m, key m = k ∧ fit m ∧ (w, m) ∈ inFlight + sent.elim 0 (broadcast G v)) :
    Told G key holds fit k
      ⟨Function.update net.nodes v s, inFlight + sent.elim 0 (broadcast G v), forwarded⟩ := by
  intro u w hadj hholds
  dsimp only at hholds ⊢
  by_cases hbefore : holds (net.nodes u) k
  · exact hold u w hadj hbefore
  · by_cases huv : u = v
    · subst huv
      rw [Function.update_self] at hholds
      obtain ⟨m, rfl, hm, hfit⟩ := hp.tells _ _ _ hmove hbefore hholds
      exact .inr ⟨m, hm, hfit, Multiset.mem_add.mpr (.inr (mem_broadcast hadj m))⟩
    · rw [Function.update_of_ne huv] at hholds
      exact absurd hholds hbefore

theorem Told.step {e : Event V M A} (hp : p.Spreads ok may key holds k fit ready)
    (htold : Told G key holds fit k net) (hready : ∀ v, ready (net.nodes v))
    (hlose : ∀ v m, e = .lose v m → key m ≠ k) (h : Step G p ok may net e net')
    (hkeep : ∀ v, holds (net.nodes v) k → holds (net'.nodes v) k) :
    Told G key holds fit k net' := by
  -- a message that is delivered is taken, and any other step leaves it on its way
  cases h with
  | @deliver v m s sent hm hmove hs hsent =>
      refine told_update hp hmove ?_
      intro u w hadj hholds
      rcases htold u w hadj hholds with hw | ⟨m', hkey, hfit, hflight⟩
      · exact .inl (hkeep w hw)
      · by_cases hsame : (w, m') = (v, m)
        · -- the message that w was waiting for
          obtain ⟨rfl, rfl⟩ := Prod.mk.inj hsame
          left
          rw [Function.update_self, hs]
          exact hp.takes _ _ (hready w) hfit hkey
        · refine .inr ⟨m', hkey, hfit, Multiset.mem_add.mpr (.inl ?_)⟩
          exact (Multiset.mem_erase_of_ne hsame).mpr hflight
  | @lose v m hm =>
      intro u w hadj hholds
      rcases htold u w hadj hholds with hw | ⟨m', hkey, hfit, hflight⟩
      · exact .inl hw
      · refine .inr ⟨m', hkey, hfit, ?_⟩
        have hne : (w, m') ≠ (v, m) := by
          intro hsame
          obtain ⟨rfl, rfl⟩ := Prod.mk.inj hsame
          exact hlose w m' rfl hkey
        exact (Multiset.mem_erase_of_ne hne).mpr hflight
  | inject v m =>
      intro u w hadj hholds
      rcases htold u w hadj hholds with hw | ⟨m', hkey, hfit, hflight⟩
      · exact .inl hw
      · exact .inr ⟨m', hkey, hfit, Multiset.mem_cons_of_mem hflight⟩
  | act a hmove hact =>
      refine told_update hp hmove ?_
      intro u w hadj hholds
      rcases htold u w hadj hholds with hw | ⟨m', hkey, hfit, hflight⟩
      · exact .inl (hkeep w hw)
      · exact .inr ⟨m', hkey, hfit, Multiset.mem_add.mpr (.inl hflight)⟩

theorem Told.history (hp : p.Spreads ok may key holds k fit ready)
    (htold : Told G key holds fit k net) (hcalm : Undisturbed G p key holds ready k net events)
    (hevents : ∀ e ∈ events, e.Within ok may) (h : net.history G p events = some net') :
    Told G key holds fit k net' := by
  refine history_induct (motive := fun events net => Told G key holds fit k net →
    Undisturbed G p key holds ready k net events → Told G key holds fit k net')
    (fun htold _ => htold) ?_ hevents h htold hcalm
  rintro e events net₁ net₂ hstep hcases ih htold₁ ⟨hready, hlose, hnext⟩
  obtain ⟨hkeep, hcalm₂⟩ := hnext net₂ hstep
  exact ih (htold₁.step hp hready hlose hcases hkeep) hcalm₂

omit [Fintype V] [DecidableRel G.Adj] [DecidableEq V] [DecidableEq M] in
/-- **Everyone hears of it.** Once no message with the key is under way, all nodes of a connected network
hold it or none does. -/
theorem Told.all_hold (htold : Told G key holds fit k net) (hG : G.Preconnected)
    (hquiet : ∀ v m, (v, m) ∈ net.inFlight → key m ≠ k) {u : V} (hu : holds (net.nodes u) k) (v : V) :
    holds (net.nodes v) k := by
  obtain ⟨walk⟩ := hG u v
  induction walk with
  | nil => exact hu
  | cons hadj _ ih =>
      apply ih
      rcases htold _ _ hadj hu with hv | ⟨m, hkey, -, hflight⟩
      · exact hv
      · exact absurd hkey (hquiet _ m hflight)

end Told

end Flood
