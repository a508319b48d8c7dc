import Mathlib.Data.List.Sort

/-!
# The first few of a collection

`top` keeps some elements of a collection, sorts them and returns the first `n`. A collection is read in
no particular order; if no two of its elements tie, that does not show in the result (`top_perm`). What
is returned is kept, sorted and at most `n`, and what is kept and not returned comes after all of it.
-/

namespace Ranked

variable {α : Type} {r : α → α → Prop} [DecidableRel r] {keep : α → Bool} {n : ℕ} {values values' : List α}
  {a : α}

/-- Of the elements that are kept, the first `n`. -/
def top (r : α → α → Prop) [DecidableRel r] (keep : α → Bool) (n : ℕ) (values : List α) : List α :=
  ((values.filter keep).insertionSort r).take n

theorem length_top_le : (top r keep n values).length ≤ n :=
  List.length_take_le n _

theorem mem_of_mem_top (h : a ∈ top r keep n values) : a ∈ values ∧ keep a = true := by
  have hsorted := List.mem_of_mem_take h
  rw [List.mem_insertionSort] at hsorted
  exact List.mem_filter.mp hsorted

theorem nodup_top (h : values.Nodup) : (top r keep n values).Nodup := by
  apply List.Nodup.sublist (List.take_sublist n _)
  rw [(List.perm_insertionSort r _).nodup_iff]
  exact h.filter keep

section Total

variable [Std.Total r] [IsTrans α r]

theorem pairwise_top : (top r keep n values).Pairwise r :=
  (List.pairwise_insertionSort r _).sublist (List.take_sublist n _)

/-- What does not make it comes after all that do, and there are `n` of them. -/
theorem mem_top_or (ha : a ∈ values) (hkeep : keep a = true) :
    a ∈ top r keep n values ∨ (top r keep n values).length = n ∧ ∀ b ∈ top r keep n values, r b a := by
  have hsorted := List.pairwise_insertionSort r (values.filter keep)
  have hmem : a ∈ (values.filter keep).insertionSort r := by
    rw [List.mem_insertionSort]
    exact List.mem_filter.mpr ⟨ha, hkeep⟩
  rw [← List.take_append_drop n ((values.filter keep).insertionSort r)] at hmem hsorted
  rcases List.mem_append.mp hmem with hfirst | hrest
  · exact .inl hfirst
  · refine .inr ⟨?_, fun b hb => (List.pairwise_append.mp hsorted).2.2 b hb a hrest⟩
    have hlong : n < ((values.filter keep).insertionSort r).length := by
      by_contra hshort
      rw [List.drop_eq_nil_of_le (Nat.not_lt.mp hshort)] at hrest
      cases hrest
    rw [top, List.length_take]
    exact Nat.min_eq_left hlong.le

/-- **Without ties** the result is that of the collection, in whatever order it is read. -/
theorem top_perm (hties : ∀ a ∈ values, ∀ b ∈ values, r a b → r b a → a = b)
    (hperm : values.Perm values') : top r keep n values = top r keep n values' := by
  have hsorted : (values.filter keep).insertionSort r = (values'.filter keep).insertionSort r := by
    refine List.Perm.eq_of_pairwise ?_ (List.pairwise_insertionSort r _)
      (List.pairwise_insertionSort r _) ?_
    · intro a b ha hb
      rw [List.mem_insertionSort] at ha hb
      exact hties a (List.mem_filter.mp ha).1 b (hperm.mem_iff.mpr (List.mem_filter.mp hb).1)
    · calc (values.filter keep).insertionSort r
          |>.Perm (values.filter keep) := List.perm_insertionSort r _
        _ |>.Perm (values'.filter keep) := hperm.filter keep
        _ |>.Perm ((values'.filter keep).insertionSort r) := (List.perm_insertionSort r _).symm
  rw [top, top, hsorted]

end Total

end Ranked
