import Mathlib.Data.List.Nodup

/-!
# A queue that is served from the front

Customers join a queue at its end, leave it from wherever they stand, and are served some at a time from
the front. Nobody is overtaken: the number of those who stand before a customer (`place`) never grows, and
each time a batch is served it falls by the size of the batch.

`served` is the rule for a whole system around such a queue. What it asks of one step is that the
customer still waits and has moved up by what the step has served, or that the step has decided about the
customer; it gives the same of every run.
-/

namespace Fifo

/-! ## Places

The place of a customer is the number of those before it. There are three ways in which the queue changes,
and none of them makes it larger. -/

section Place

variable {α κ : Type} [DecidableEq κ] {key : α → κ} {queue : List α} {x : α}

/-- How many stand before the customer of key `k`. -/
def place (key : α → κ) (queue : List α) (k : κ) : ℕ := queue.findIdx fun y => key y = k

/-- Those who join stand behind. -/
theorem place_append (hx : x ∈ queue) (joined : List α) :
    place key (queue ++ joined) (key x) = place key queue (key x) := by
  induction queue with
  | nil => cases hx
  | cons y queue ih =>
      by_cases hkey : key y = key x
      · simp [place, List.findIdx_cons, hkey]
      · have hrest : x ∈ queue := by
          rcases List.mem_cons.mp hx with rfl | hrest
          · exact absurd rfl hkey
          · exact hrest
        have hplace := ih hrest
        unfold place at hplace
        simp [place, List.findIdx_cons, hkey, hplace]

/-- One who joins stands behind all the others. -/
theorem place_concat (hx : key x ∉ queue.map key) : place key (queue ++ [x]) (key x) = queue.length := by
  induction queue with
  | nil => simp [place, List.findIdx_cons]
  | cons y queue ih =>
      rw [List.map_cons, List.mem_cons, not_or] at hx
      have hplace := ih hx.2
      unfold place at hplace
      simp [place, List.findIdx_cons, Ne.symm hx.1, hplace]

/-- Those who leave make room, as long as the customer stays. -/
theorem place_filter_le {stays : α → Bool} (h : ∀ y ∈ queue, key y = key x → stays y = true) :
    place key (queue.filter stays) (key x) ≤ place key queue (key x) := by
  induction queue with
  | nil => exact Nat.le_refl _
  | cons y queue ih =>
      have hrest := ih fun z hz => h z (List.mem_cons_of_mem y hz)
      -- the one in front is the customer, or stands before it and stays or leaves
      by_cases hkey : key y = key x
      · rw [List.filter_cons_of_pos (h y List.mem_cons_self hkey)]
        simp [place, List.findIdx_cons, hkey]
      · unfold place at hrest ⊢
        rw [List.findIdx_cons, decide_eq_false hkey]
        by_cases hstays : stays y = true
        · rw [List.filter_cons_of_pos hstays, List.findIdx_cons, decide_eq_false hkey]
          exact Nat.succ_le_succ hrest
        · rw [List.filter_cons_of_neg hstays]
          exact Nat.le_succ_of_le hrest

/-- When the first `n` are served, the others move up by `n`. -/
theorem place_drop (hnodup : (queue.map key).Nodup) {n : ℕ} (hx : x ∈ queue.drop n) :
    place key (queue.drop n) (key x) + n = place key queue (key x) := by
  induction n generalizing queue with
  | zero => rfl
  | succ n ih =>
      cases queue with
      | nil => cases hx
      | cons y queue =>
          rw [List.map_cons, List.nodup_cons] at hnodup
          rw [List.drop_succ_cons] at hx ⊢
          have hkey : key y ≠ key x := by
            intro heq
            exact hnodup.1 (heq ▸ List.mem_map_of_mem (List.mem_of_mem_drop hx))
          have hplace : place key (y :: queue) (key x) = place key queue (key x) + 1 := by
            simp [place, List.findIdx_cons, hkey]
          rw [hplace, ← ih hnodup.2 hx, Nat.add_assoc]

/-- Whoever is among the first `n` has fewer than `n` before it. -/
theorem place_lt_of_mem_take {n : ℕ} (hx : x ∈ queue.take n) : place key queue (key x) < n := by
  induction n generalizing queue with
  | zero => cases hx
  | succ n ih =>
      cases queue with
      | nil => cases hx
      | cons y queue =>
          by_cases hkey : key y = key x
          · simp [place, List.findIdx_cons, hkey]
          · have hrest : x ∈ queue.take n := by
              rcases List.mem_cons.mp hx with rfl | hrest
              · exact absurd rfl hkey
              · exact hrest
            have hplace : place key (y :: queue) (key x) = place key queue (key x) + 1 := by
              simp [place, List.findIdx_cons, hkey]
            rw [hplace]
            exact Nat.succ_lt_succ (ih hrest)

omit [DecidableEq κ] in
/-- Whoever is served is gone. -/
theorem notMem_drop_of_mem_take (hnodup : (queue.map key).Nodup) {n : ℕ} (hx : x ∈ queue.take n) :
    x ∉ queue.drop n :=
  fun hdrop => List.disjoint_take_drop hnodup.of_map (Nat.le_refl n) hx hdrop

end Place

/-! ## Runs

A system takes its steps, and some of them serve the queue. What is kept by one step is lifted to runs. -/

section Run

variable {σ ε : Type} {step : σ → ε → σ} {gain : σ → ε → ℕ}

/-- What the steps of a run have served, all together. -/
def total (step : σ → ε → σ) (gain : σ → ε → ℕ) : σ → List ε → ℕ
  | _, [] => 0
  | s, e :: es => gain s e + total step gain (step s e) es

theorem total_mul (c : ℕ) (s : σ) (es : List ε) :
    total step (fun s e => c * gain s e) s es = c * total step gain s es := by
  induction es generalizing s with
  | nil => rfl
  | cons e es ih => rw [total, total, ih, Nat.mul_add]

/-- **Nobody waits for ever.** Along every run the customer waits and has moved up by all that was served,
or was decided about at some step, and had moved up by all that was served until then. -/
theorem served (step : σ → ε → σ) (I waits : σ → Prop) (place : σ → ℕ) (gain : σ → ε → ℕ)
    (decided : σ → ε → Prop) (hkeep : ∀ s e, I s → I (step s e))
    (hstep : ∀ s e, I s → waits s →
      (waits (step s e) ∧ place (step s e) + gain s e ≤ place s) ∨ decided s e)
    {s : σ} (hI : I s) (hwaits : waits s) (es : List ε) :
    (waits (es.foldl step s) ∧ place (es.foldl step s) + total step gain s es ≤ place s) ∨
      ∃ before e after, es = before ++ e :: after ∧ waits (before.foldl step s) ∧
        place (before.foldl step s) + total step gain s before ≤ place s ∧
          decided (before.foldl step s) e := by
  induction es generalizing s with
  | nil => exact .inl ⟨hwaits, Nat.le_refl _⟩
  | cons e es ih =>
      -- either the first step decides, or the customer waits on and the rest of the run says what comes
      rcases hstep s e hI hwaits with ⟨hstill, hup⟩ | hdecided
      · rcases ih (hkeep s e hI) hstill with ⟨hend, hplace⟩ | ⟨before, e', after, rfl, hbefore, hplace, hdec⟩
        · refine .inl ⟨hend, ?_⟩
          rw [List.foldl_cons, total]
          omega
        · refine .inr ⟨e :: before, e', after, rfl, hbefore, ?_, hdec⟩
          rw [List.foldl_cons, total]
          omega
      · exact .inr ⟨[], e, es, rfl, hwaits, Nat.le_refl _, hdecided⟩

end Run

end Fifo
