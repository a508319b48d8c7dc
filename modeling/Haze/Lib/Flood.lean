import Mathlib.Combinatorics.SimpleGraph.Connectivity.Connected
import Haze.Lib.Checked

/-!
# Flooding a network

Nodes of a graph keep a state and pass messages on: a node that receives a message changes its state
and either drops the message or sends it to all its neighbours, the one it came from included. What a
node does is a function `react`; messages in flight are delivered in any order.

`Flood.exists_run` says what a node that always passes a message on leads to: two neighbours send it
to and fro for as long as one likes. `Flood.run_isolated` is the other extreme.
-/

variable {V σ M : Type}

/-- The states of the nodes, the messages on their way with their recipients, and a record of the
messages passed on, with the nodes that did so. -/
structure Flood (V σ M : Type) where
  nodes : V → σ
  inFlight : Multiset (V × M)
  forwarded : List (V × M)

namespace Flood

/-- One message on its way to a node. -/
def inject (nodes : V → σ) (v : V) (m : M) : Flood V σ M :=
  ⟨nodes, {(v, m)}, []⟩

variable [Fintype V] (G : SimpleGraph V) [DecidableRel G.Adj]

/-- A copy of the message for every neighbour. -/
def broadcast (v : V) (m : M) : Multiset (V × M) :=
  (Finset.univ.filter (G.Adj v)).val.map fun u => (u, m)

variable {G} in
theorem mem_broadcast {u v : V} (hadj : G.Adj u v) (m : M) : (v, m) ∈ broadcast G u m := by
  refine Multiset.mem_map_of_mem _ ?_
  rw [Finset.mem_val, Finset.mem_filter]
  exact ⟨Finset.mem_univ v, hadj⟩

variable {G} in
theorem broadcast_isolated {v : V} (h : ∀ u, ¬ G.Adj v u) (m : M) : broadcast G v m = 0 := by
  rw [broadcast, Finset.filter_false_of_mem (fun u _ => h u)]
  rfl

variable [DecidableEq V] [DecidableEq M] (react : σ → M → σ × Bool)

/-- Deliver one of the messages in flight. -/
def deliver (net : Flood V σ M) (d : V × M) : Option (Flood V σ M) :=
  if d ∈ net.inFlight then
    let (state, forward) := react (net.nodes d.1) d.2
    let rest := net.inFlight.erase d
    some
      { nodes := Function.update net.nodes d.1 state
        inFlight := if forward then rest + broadcast G d.1 d.2 else rest
        forwarded := if forward then net.forwarded ++ [d] else net.forwarded }
  else none

/-- Deliver messages in the given order. -/
def run (net : Flood V σ M) (schedule : List (V × M)) : Option (Flood V σ M) :=
  schedule.foldlM (deliver G react) net

theorem run_append (net : Flood V σ M) (ds ds' : List (V × M)) :
    net.run G react (ds ++ ds') = (net.run G react ds).bind fun net' => net'.run G react ds' :=
  List.foldlM_append

variable {G react}

/-- What a delivery does at a node that passes the message on. -/
theorem deliver_forward {net : Flood V σ M} {v : V} {m : M} (hm : (v, m) ∈ net.inFlight)
    (hfwd : (react (net.nodes v) m).2 = true) :
    ∃ net', net.deliver G react (v, m) = some net' ∧
      net'.inFlight = net.inFlight.erase (v, m) + broadcast G v m ∧
      net'.forwarded = net.forwarded ++ [(v, m)] := by
  refine ⟨_, if_pos hm, ?_, ?_⟩
  · exact if_pos hfwd
  · exact if_pos hfwd

/-! ## To and fro

Nothing in a flood tells a message from one that a node has seen. If a node passes every message on, its
neighbour sends it back, and so on. -/

section Forwarding

variable {m : M} (hfwd : ∀ state, (react state m).2 = true)

include hfwd

/-- Out and back: a message delivered to a node and then to a neighbour is on its way to the node
again. -/
theorem round_trip {net : Flood V σ M} {u v : V} (hadj : G.Adj u v) (hm : (u, m) ∈ net.inFlight) :
    ∃ net', net.run G react [(u, m), (v, m)] = some net' ∧ (u, m) ∈ net'.inFlight ∧
      net'.forwarded.count (u, m) = net.forwarded.count (u, m) + 1 := by
  obtain ⟨net₁, hdel₁, hflight₁, hlog₁⟩ := deliver_forward (G := G) hm (hfwd (net.nodes u))
  have hm₁ : (v, m) ∈ net₁.inFlight := by
    rw [hflight₁]
    exact Multiset.mem_add.mpr (.inr (mem_broadcast hadj m))
  obtain ⟨net₂, hdel₂, hflight₂, hlog₂⟩ := deliver_forward (G := G) hm₁ (hfwd (net₁.nodes v))
  refine ⟨net₂, ?_, ?_, ?_⟩
  · simp [run, hdel₁, hdel₂]
  · rw [hflight₂]
    exact Multiset.mem_add.mpr (.inr (mem_broadcast hadj.symm m))
  · have hne : (v, m) ≠ (u, m) := fun h => hadj.ne (congrArg Prod.fst h).symm
    rw [hlog₂, hlog₁, List.count_append, List.count_append, List.count_singleton_self,
      List.count_singleton, if_neg (by simpa using hne)]

/-- A node with a neighbour can be made to pass the message on any number of times. -/
theorem exists_run {u v : V} (hadj : G.Adj u v) (n : ℕ) {net : Flood V σ M}
    (hm : (u, m) ∈ net.inFlight) :
    ∃ schedule net', net.run G react schedule = some net' ∧ (u, m) ∈ net'.inFlight ∧
      net'.forwarded.count (u, m) = net.forwarded.count (u, m) + n := by
  induction n with
  | zero => exact ⟨[], net, rfl, hm, rfl⟩
  | succ n ih =>
      obtain ⟨schedule, net₁, hrun₁, hm₁, hcount₁⟩ := ih
      obtain ⟨net₂, hrun₂, hm₂, hcount₂⟩ := round_trip hfwd hadj hm₁
      refine ⟨schedule ++ [(u, m), (v, m)], net₂, ?_, hm₂, ?_⟩
      · rw [run_append, hrun₁]
        exact hrun₂
      · rw [hcount₂, hcount₁, Nat.add_assoc]

end Forwarding

/-! ## No neighbours

A node alone has nobody to send anything to. -/

theorem deliver_isolated (hiso : ∀ u v, ¬ G.Adj u v) {net net' : Flood V σ M} {d : V × M}
    (h : net.deliver G react d = some net') :
    net'.inFlight.card + net'.forwarded.length ≤ net.inFlight.card + net.forwarded.length := by
  unfold deliver at h
  split at h
  · next hd =>
    cases h
    have hcard := Multiset.card_erase_add_one hd
    simp only [broadcast_isolated (hiso d.1), Multiset.add_zero, ite_self]
    split
    · rw [List.length_append, List.length_singleton]
      omega
    · omega
  · cases h

/-- Without neighbours every message in flight is passed on once at most. -/
theorem run_isolated (hiso : ∀ u v, ¬ G.Adj u v) {net net' : Flood V σ M}
    {schedule : List (V × M)} (h : net.run G react schedule = some net') :
    net'.forwarded.length ≤ net.inFlight.card + net.forwarded.length := by
  have hbound : net'.inFlight.card + net'.forwarded.length ≤
      net.inFlight.card + net.forwarded.length := by
    refine Checked.foldlM_induct (motive := fun _ (net' : Flood V σ M) =>
      net'.inFlight.card + net'.forwarded.length ≤ net.inFlight.card + net.forwarded.length)
      le_rfl ?_ h
    intro _ d net₁ net₂ hle hdel
    exact (deliver_isolated hiso hdel).trans hle
  exact (Nat.le_add_left _ _).trans hbound

end Flood
