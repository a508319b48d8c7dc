import Mathlib.Algebra.BigOperators.Group.List.Basic
import Mathlib.Algebra.Order.Ring.Nat
import Mathlib.Data.List.Perm.Basic

/-!
# Weighted draws without replacement

The elements of a pool own consecutive intervals of the length of their weight, in the order of the pool. A
draw takes the element whose interval holds the target; the next draw is from the rest of the pool, with
another seed. `Drawn` says which order comes out, and does not say how it is found.
-/

namespace Draw

variable {α : Type} {weight : α → ℕ} {seed : ℕ → ℕ}

def totalWeight (weight : α → ℕ) (pool : List α) : ℕ :=
  (pool.map weight).sum

theorem totalWeight_cons (x : α) (pool : List α) :
    totalWeight weight (x :: pool) = weight x + totalWeight weight pool :=
  List.sum_cons

theorem totalWeight_append (pool pool' : List α) :
    totalWeight weight (pool ++ pool') = totalWeight weight pool + totalWeight weight pool' := by
  rw [totalWeight, List.map_append, List.sum_append, totalWeight, totalWeight]

/-- The pool is `pre ++ x :: post`, and the interval of `x` holds the target. -/
structure Owns (weight : α → ℕ) (pool : List α) (target : ℕ) (pre : List α) (x : α) (post : List α) :
    Prop where
  split : pool = pre ++ x :: post
  lower : totalWeight weight pre ≤ target
  upper : target < totalWeight weight pre + weight x

/-- No two intervals overlap. -/
theorem Owns.unique {pool pre pre' post post' : List α} {x x' : α} {target : ℕ}
    (h : Owns weight pool target pre x post) (h' : Owns weight pool target pre' x' post') :
    pre = pre' ∧ x = x' ∧ post = post' := by
  have hcut := h.split.symm.trans h'.split
  -- were the one prefix longer, it would contain the whole interval of the other element
  have hlonger : ∀ {pre pre' : List α} {x x' : α} {post post' : List α} {run : List α},
      target < totalWeight weight pre + weight x → totalWeight weight pre' ≤ target → pre' = pre ++ run →
      x :: post = run ++ x' :: post' → run = [] := by
    intro pre pre' x x' post post' run hupper hlower hpre hrest
    cases run with
    | nil => rfl
    | cons y run =>
        obtain ⟨rfl, -⟩ := List.cons.inj hrest
        rw [hpre, totalWeight_append, totalWeight_cons] at hlower
        omega
  rcases List.append_eq_append_iff.mp hcut with ⟨run, hpre, hrest⟩ | ⟨run, hpre, hrest⟩
  · obtain rfl := hlonger h.upper h'.lower hpre hrest
    rw [List.append_nil] at hpre
    exact ⟨hpre.symm, (List.cons.inj hrest).1, (List.cons.inj hrest).2⟩
  · obtain rfl := hlonger h'.upper h.lower hpre hrest
    rw [List.append_nil] at hpre
    exact ⟨hpre, (List.cons.inj hrest).1.symm, (List.cons.inj hrest).2.symm⟩

/-- The order in which the pool is drawn from a round on. -/
inductive Drawn (weight : α → ℕ) (seed : ℕ → ℕ) : ℕ → List α → List α → Prop where
  | nil {round : ℕ} : Drawn weight seed round [] []
  | cons {round : ℕ} {pool pre post order : List α} {x : α}
      (hdraw : Owns weight pool (seed round % totalWeight weight pool) pre x post)
      (hrest : Drawn weight seed (round + 1) (pre ++ post) order) : Drawn weight seed round pool (x :: order)

theorem Drawn.perm {round : ℕ} {pool order : List α} (h : Drawn weight seed round pool order) :
    order.Perm pool := by
  induction h with
  | nil => exact .refl _
  | @cons round pool pre post order x hdraw hrest ih =>
      rw [hdraw.split]
      exact (ih.cons x).trans List.perm_middle.symm

/-- There is one such order. -/
theorem Drawn.unique {round : ℕ} {pool order order' : List α} (h : Drawn weight seed round pool order)
    (h' : Drawn weight seed round pool order') : order = order' := by
  induction h generalizing order' with
  | nil =>
      cases h' with
      | nil => rfl
      | cons hdraw =>
          exact absurd hdraw.split.symm (List.append_ne_nil_of_right_ne_nil _ (List.cons_ne_nil _ _))
  | cons hdraw hrest ih =>
      cases h' with
      | nil => exact absurd hdraw.split.symm (List.append_ne_nil_of_right_ne_nil _ (List.cons_ne_nil _ _))
      | cons hdraw' hrest' =>
          obtain ⟨rfl, rfl, rfl⟩ := hdraw.unique hdraw'
          rw [ih hrest']

/-- The draw of rank `k` is from what was not drawn before, in the order of the pool. -/
theorem Drawn.rank {round : ℕ} {pool order : List α} (h : Drawn weight seed round pool order) {k : ℕ}
    {x : α} (hx : order[k]? = some x) :
    ∃ rest pre post, rest.Sublist pool ∧ rest.Perm (order.drop k) ∧
      Owns weight rest (seed (round + k) % totalWeight weight rest) pre x post := by
  induction h generalizing k with
  | nil => cases hx
  | @cons round pool pre post order y hdraw hrest ih =>
      cases k with
      -- the first draw is from the whole pool
      | zero =>
          obtain rfl := Option.some.inj hx
          exact ⟨pool, pre, post, List.Sublist.refl _, (Drawn.cons hdraw hrest).perm.symm, hdraw⟩
      | succ k =>
          -- a later one is the draw of a rank before, in the rest of the pool
          obtain ⟨rest, pre', post', hsub, hperm, howns⟩ := ih hx
          refine ⟨rest, pre', post', hsub.trans ?_, hperm, ?_⟩
          · rw [hdraw.split]
            exact (List.Sublist.refl pre).append (List.sublist_cons_self y post)
          · rwa [Nat.add_right_comm] at howns

end Draw
