import Mathlib.Data.List.Sort

/-!
# Queues that are served by rank

A queue is sorted by a relation "goes first", so many items are taken from the front, the others stay.
Nothing is lost, and what was taken goes before everything that stays (`Split`). In between, the items in
a queue have keys of their own and there are not too many of them (`Tidy`); taking items out never
disturbs that.
-/

namespace Priority

variable {α κ : Type} {before : α → α → Prop} {queue queue' taken rest : List α} {cap : ℕ}

/-- How serving up to `cap` items splits a queue. -/
structure Split (before : α → α → Prop) (cap : ℕ) (queue taken rest : List α) : Prop where
  perm : (taken ++ rest).Perm queue
  count : taken.length = min queue.length cap
  priority : ∀ x ∈ taken, ∀ y ∈ rest, before x y

/-- Sorting the queue and cutting it gives such a split. -/
theorem split_insertionSort (before : α → α → Prop) [DecidableRel before] [Std.Total before]
    [IsTrans α before] (cap : ℕ) (queue : List α) :
    Split before cap queue ((queue.insertionSort before).take cap)
      ((queue.insertionSort before).drop cap) := by
  have hperm := List.perm_insertionSort before queue
  have hsorted := List.pairwise_insertionSort before queue
  refine ⟨?_, ?_, ?_⟩
  · rw [List.take_append_drop]
    exact hperm
  · rw [List.length_take, hperm.length_eq, Nat.min_comm]
  · rw [← List.take_append_drop cap (queue.insertionSort before), List.pairwise_append] at hsorted
    exact hsorted.2.2

/-- Another relation that follows from the first one on the items of the queue. -/
theorem Split.mono {before' : α → α → Prop} (h : Split before cap queue taken rest)
    (hmono : ∀ x ∈ queue, ∀ y ∈ queue, before x y → before' x y) :
    Split before' cap queue taken rest := by
  refine ⟨h.perm, h.count, ?_⟩
  intro x hx y hy
  have hxq := h.perm.mem_iff.mp (List.mem_append_left rest hx)
  have hyq := h.perm.mem_iff.mp (List.mem_append_right taken hy)
  exact hmono x hxq y hyq (h.priority x hx y hy)

/-! ## Keys

A queue that refuses a key it already has holds no key twice, also after some have been taken out. -/

/-- At most `cap` items, no two with the same key. -/
structure Tidy (key : α → κ) (cap : ℕ) (queue : List α) : Prop where
  distinct : (queue.map key).Nodup
  within : queue.length ≤ cap

theorem Tidy.nil {key : α → κ} : Tidy key cap [] :=
  ⟨List.nodup_nil, Nat.zero_le cap⟩

/-- An item with a new key, while there is room. -/
theorem Tidy.concat {key : α → κ} {x : α} (h : Tidy key cap queue) (hroom : queue.length < cap)
    (hnew : ∀ y ∈ queue, key y ≠ key x) : Tidy key cap (queue ++ [x]) := by
  refine ⟨?_, ?_⟩
  · rw [List.map_append, List.map_singleton, List.nodup_append']
    refine ⟨h.distinct, List.nodup_singleton _, ?_⟩
    rw [List.disjoint_singleton]
    intro hmem
    obtain ⟨y, hy, hkey⟩ := List.mem_map.mp hmem
    exact hnew y hy hkey
  · rw [List.length_append, List.length_singleton]
    exact hroom

/-- Part of a queue, in any order. -/
theorem Tidy.subperm {key : α → κ} (h : Tidy key cap queue) (hsub : queue'.Subperm queue) :
    Tidy key cap queue' := by
  have hlength := hsub.length_le.trans h.within
  obtain ⟨part, hperm, hpart⟩ := hsub
  refine ⟨?_, hlength⟩
  exact (hperm.map key).nodup_iff.mp (h.distinct.sublist (hpart.map key))

end Priority
