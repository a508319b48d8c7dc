import Mathlib.Algebra.BigOperators.Group.List.Basic
import Mathlib.Data.List.Count
import Mathlib.Data.List.Induction
import Mathlib.Tactic.Abel

/-!
# Cancelling two lists against each other

Each element of one list takes out the first element of the other that carries its key, and is
dropped itself; an element that finds no partner stays. What is left are sublists of both lists, no
key is left on both sides, and whatever a key stands for in a commutative group, the difference of
the two sums has not moved.
-/

namespace Cancel

variable {α β K : Type} [DecidableEq K] (f : α → K) (g : β → K)

/-- One element meets the other list. -/
def step (acc : List α × List β) (a : α) : List α × List β :=
  if acc.2.any fun b => g b == f a then (acc.1, acc.2.eraseP fun b => g b == f a)
  else (acc.1 ++ [a], acc.2)

/-- The elements without a partner, and what is left of the other list. -/
def cancel (as : List α) (bs : List β) : List α × List β :=
  as.foldl (step f g) ([], bs)

variable {f g}

/-- Either `a` stays, because its key is not on the other side, or it leaves with a partner. -/
theorem step_cases (acc : List α × List β) (a : α) :
    (f a ∉ acc.2.map g ∧ step f g acc a = (acc.1 ++ [a], acc.2)) ∨
      ∃ b bs₁ bs₂, g b = f a ∧ acc.2 = bs₁ ++ b :: bs₂ ∧ step f g acc a = (acc.1, bs₁ ++ bs₂) := by
  unfold step
  split
  next h =>
    right
    obtain ⟨b, hb, hkey⟩ := List.any_eq_true.mp h
    obtain ⟨b', bs₁, bs₂, -, hkey', heq, herase⟩ := List.exists_of_eraseP (p := fun b => g b == f a) hb hkey
    exact ⟨b', bs₁, bs₂, by simpa using hkey', heq, by rw [herase]⟩
  next h =>
    left
    refine ⟨?_, rfl⟩
    intro hmem
    obtain ⟨b, hb, hkey⟩ := List.mem_map.mp hmem
    exact h (List.any_eq_true.mpr ⟨b, hb, by simpa using hkey⟩)

/-- Nothing takes out an element whose key is not on the other side. -/
theorem mem_cancel_of_notMem {as : List α} {bs : List β} {b : β} (hb : b ∈ bs)
    (hkey : g b ∉ as.map f) : b ∈ (cancel f g as bs).2 := by
  have hloop : ∀ acc : List α × List β, b ∈ acc.2 → b ∈ (as.foldl (step f g) acc).2 := by
    induction as with
    -- an element of the other list is only taken out by one that carries its key
    | nil => exact fun acc hacc => hacc
    | cons a as ih =>
        rw [List.map_cons, List.mem_cons, not_or] at hkey
        intro acc hacc
        refine ih hkey.2 _ ?_
        unfold step
        split
        · exact (List.mem_eraseP_of_neg (by simpa using hkey.1)).mpr hacc
        · exact hacc
  exact hloop ([], bs) hb

/-- What has been processed of the first list, against what is left of both. -/
structure Cancelled (f : α → K) (g : β → K) (as : List α) (bs : List β) (r : List α × List β) :
    Prop where
  left : r.1.Sublist as
  right : r.2.Sublist bs
  /-- What was dropped on the two sides has the same keys. -/
  common : ∃ ks : List K, (as.map f).Perm (r.1.map f ++ ks) ∧ (bs.map g).Perm (r.2.map g ++ ks)
  /-- Nothing that stays has a partner left. -/
  apart : ∀ a ∈ r.1, f a ∉ r.2.map g

theorem Cancelled.step {as : List α} {bs : List β} {r : List α × List β}
    (h : Cancelled f g as bs r) (a : α) : Cancelled f g (as ++ [a]) bs (step f g r a) := by
  obtain ⟨ks, has, hbs⟩ := h.common
  rcases step_cases (f := f) (g := g) r a with ⟨hnot, heq⟩ | ⟨b, bs₁, bs₂, hkey, hr, heq⟩
  · rw [heq]
    -- no partner: the element joins those that stay, and the other list is as it was
    refine ⟨h.left.append (List.Sublist.refl _), h.right, ⟨ks, ?_, hbs⟩, ?_⟩
    · rw [List.map_append, List.map_append, List.append_assoc]
      refine (has.append_right _).trans ?_
      rw [List.append_assoc]
      exact (List.perm_append_comm).append_left _
    · intro x hx
      rcases List.mem_append.mp hx with hx | hx
      · exact h.apart x hx
      · rw [List.mem_singleton.mp hx]
        exact hnot
  · rw [heq]
    have hsub : (bs₁ ++ bs₂).Sublist r.2 := by
      rw [hr]
      exact (List.Sublist.refl _).append (List.sublist_cons_self b bs₂)
    -- with a partner: both leave under one key, which joins the common ones
    refine ⟨h.left.trans (List.sublist_append_left _ _), hsub.trans h.right, ⟨f a :: ks, ?_, ?_⟩, ?_⟩
    · rw [List.map_append]
      refine (has.append_right _).trans ?_
      rw [List.append_assoc]
      exact (List.perm_append_singleton _ _).append_left _
    · refine hbs.trans ?_
      rw [hr, ← hkey]
      simp only [List.map_append, List.map_cons, List.append_assoc, List.cons_append]
      refine List.Perm.append_left _ ?_
      exact List.perm_middle.symm
    · intro x hx hmem
      exact h.apart x hx ((hsub.map g).subset hmem)

/-- **What cancelling leaves.** -/
theorem cancelled_cancel (as : List α) (bs : List β) :
    Cancelled f g as bs (cancel f g as bs) := by
  induction as using List.reverseRecOn with
  | nil => exact ⟨List.Sublist.refl _, List.Sublist.refl _, ⟨[], by simp [cancel], by simp [cancel]⟩,
      by simp [cancel]⟩
  | append_singleton as a ih =>
      rw [cancel, List.foldl_append]
      exact ih.step a

section Sums

variable {M : Type} [AddCommGroup M] (w : K → M)

omit [DecidableEq K] in
/-- The difference of the two totals is kept. -/
theorem Cancelled.sum_sub {as : List α} {bs : List β} {r : List α × List β}
    (h : Cancelled f g as bs r) :
    ((r.1.map f).map w).sum - ((r.2.map g).map w).sum =
      ((as.map f).map w).sum - ((bs.map g).map w).sum := by
  obtain ⟨ks, has, hbs⟩ := h.common
  rw [(has.map w).sum_eq, (hbs.map w).sum_eq]
  simp only [List.map_append, List.sum_append]
  abel

end Sums

/-- A key is left on one side at most. -/
theorem Cancelled.count_eq_zero {as : List α} {bs : List β} {r : List α × List β}
    (h : Cancelled f g as bs r) (k : K) : (r.1.map f).count k = 0 ∨ (r.2.map g).count k = 0 := by
  by_cases hk : k ∈ r.1.map f
  · obtain ⟨a, ha, rfl⟩ := List.mem_map.mp hk
    exact Or.inr (List.count_eq_zero.mpr (h.apart a ha))
  · exact Or.inl (List.count_eq_zero.mpr hk)

/-- **How often a key is left.** Each occurrence on one side takes away one on the other. -/
theorem Cancelled.count_eq {as : List α} {bs : List β} {r : List α × List β}
    (h : Cancelled f g as bs r) (k : K) :
    (r.1.map f).count k = (as.map f).count k - (bs.map g).count k ∧
      (r.2.map g).count k = (bs.map g).count k - (as.map f).count k := by
  obtain ⟨ks, has, hbs⟩ := h.common
  have hzero := h.count_eq_zero k
  rw [has.count_eq, hbs.count_eq, List.count_append, List.count_append]
  omega

/-- A key stays on the left when it occurs there more often than on the right. -/
theorem Cancelled.mem_left_iff {as : List α} {bs : List β} {r : List α × List β}
    (h : Cancelled f g as bs r) {k : K} :
    k ∈ r.1.map f ↔ (bs.map g).count k < (as.map f).count k := by
  rw [← List.count_pos_iff, (h.count_eq k).1]
  omega

end Cancel
