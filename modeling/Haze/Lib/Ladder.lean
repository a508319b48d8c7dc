import Mathlib.Data.List.Basic

/-!
# Lists with one element for each height

The element at place `i` has height `i`. A window of heights is then a window of places: so many are
dropped, so many are taken, and whether some are left can be told from the length.
-/

namespace Ladder

variable {α : Type} {height : α → ℕ} {up : List α} {n lo limit : ℕ}

/-- One element for each height below `n`, in this order. -/
def Rungs (height : α → ℕ) (up : List α) (n : ℕ) : Prop :=
  up.map height = List.range n

theorem Rungs.length_eq (h : Rungs height up n) : up.length = n := by
  have hlen : (up.map height).length = n := by rw [h, List.length_range]
  rwa [List.length_map] at hlen

theorem Rungs.height_getElem (h : Rungs height up n) {i : ℕ} (hi : i < up.length) :
    height up[i] = i := by
  have hn : i < n := h.length_eq ▸ hi
  have hget : (up.map height)[i]? = (List.range n)[i]? := by rw [h]
  rw [List.getElem?_map, List.getElem?_eq_getElem hi, List.getElem?_range hn] at hget
  exact Option.some.inj hget

theorem Rungs.height_lt (h : Rungs height up n) {x : α} (hx : x ∈ up) : height x < n := by
  obtain ⟨i, hi, rfl⟩ := List.mem_iff_getElem.mp hx
  rw [h.height_getElem hi, ← h.length_eq]
  exact hi

theorem Rungs.lt_of_mem_take (h : Rungs height up n) {k : ℕ} {x : α} (hx : x ∈ up.take k) :
    height x < k := by
  obtain ⟨i, hi, rfl⟩ := List.mem_take_iff_getElem.mp hx
  rw [h.height_getElem (by omega)]
  omega

theorem Rungs.le_of_mem_drop (h : Rungs height up n) {k : ℕ} {x : α} (hx : x ∈ up.drop k) :
    k ≤ height x := by
  obtain ⟨i, hi, rfl⟩ := List.mem_drop_iff_getElem.mp hx
  rw [h.height_getElem (by omega)]
  omega

/-- A window of places is a window of heights. -/
theorem Rungs.window_eq (h : Rungs height up n) :
    (up.drop lo).take limit = up.filter fun x => decide (lo ≤ height x ∧ height x < lo + limit) := by
  -- the list in three parts: before the window, the window, behind it
  have hsplit : up = up.take lo ++ ((up.drop lo).take limit ++ (up.drop lo).drop limit) := by
    rw [List.take_append_drop, List.take_append_drop]
  have hbefore : ∀ x ∈ up.take lo, ¬ (lo ≤ height x ∧ height x < lo + limit) := by
    intro x hx
    have := h.lt_of_mem_take hx
    omega
  have hin : ∀ x ∈ (up.drop lo).take limit, lo ≤ height x ∧ height x < lo + limit := by
    intro x hx
    refine ⟨h.le_of_mem_drop (List.mem_of_mem_take hx), ?_⟩
    rw [List.take_drop] at hx
    exact h.lt_of_mem_take (List.mem_of_mem_drop hx)
  have hbehind : ∀ x ∈ (up.drop lo).drop limit, ¬ (lo ≤ height x ∧ height x < lo + limit) := by
    intro x hx
    rw [List.drop_drop] at hx
    have := h.le_of_mem_drop hx
    omega
  conv_rhs => rw [hsplit]
  rw [List.filter_append, List.filter_append, List.filter_eq_nil_iff.mpr (by simpa using hbefore),
    List.filter_eq_self.mpr (by simpa using hin), List.filter_eq_nil_iff.mpr (by simpa using hbehind),
    List.nil_append, List.append_nil]

/-- It holds its heights in order, without a gap. -/
theorem Rungs.map_window (h : Rungs height up n) :
    ((up.drop lo).take limit).map height = List.range' lo (min limit (n - lo)) := by
  rw [List.map_take, List.map_drop, h, List.range_eq_range', List.drop_range', Nat.zero_add,
    Nat.mul_one]
  rcases Nat.le_total limit (n - lo) with hle | hle
  · rw [List.take_range'_of_length_ge hle, Nat.min_eq_left hle]
  · rw [List.take_range'_of_length_le hle, Nat.min_eq_right hle]

/-- More than `limit` places from `lo` on: there is an element from there on above the window. -/
theorem Rungs.limit_lt_iff (h : Rungs height up n) (lo limit : ℕ) :
    limit < (up.drop lo).length ↔
      ∃ x ∈ up, lo ≤ height x ∧ ∀ y ∈ (up.drop lo).take limit, height y < height x := by
  have hlen := h.length_eq
  rw [List.length_drop, h.window_eq]
  constructor
  · intro hlt
    refine ⟨up[lo + limit], List.getElem_mem _, ?_⟩
    rw [h.height_getElem (by omega)]
    refine ⟨Nat.le_add_right lo limit, ?_⟩
    intro y hy
    exact (of_decide_eq_true (List.mem_filter.mp hy).2).2
  · rintro ⟨x, hx, hlo, habove⟩
    -- an element of the window is not above itself
    have hout : ¬ height x < lo + limit := by
      intro hlt
      exact Nat.lt_irrefl _ (habove x (List.mem_filter.mpr ⟨hx, decide_eq_true ⟨hlo, hlt⟩⟩))
    have hn := h.height_lt hx
    omega

/-- From the top down, as long as the heights are not below `lo`. -/
theorem Rungs.reverse_takeWhile (h : Rungs height up n) :
    (up.reverse.takeWhile fun x => decide (lo ≤ height x)).reverse = up.drop lo := by
  have hsplit : up.reverse = (up.drop lo).reverse ++ (up.take lo).reverse := by
    rw [← List.reverse_append, List.take_append_drop]
  have habove : ∀ x ∈ (up.drop lo).reverse, decide (lo ≤ height x) = true := by
    intro x hx
    exact decide_eq_true (h.le_of_mem_drop (List.mem_reverse.mp hx))
  have hbelow : ∀ x ∈ (up.take lo).reverse, ¬ decide (lo ≤ height x) = true := by
    intro x hx
    rw [decide_eq_true_eq]
    exact Nat.not_le.mpr (h.lt_of_mem_take (List.mem_reverse.mp hx))
  have hstop : (up.take lo).reverse.takeWhile (fun x => decide (lo ≤ height x)) = [] := by
    cases hrest : (up.take lo).reverse with
    | nil => rfl
    | cons x rest =>
        rw [hrest] at hbelow
        exact List.takeWhile_cons_of_neg (hbelow x List.mem_cons_self)
  rw [hsplit, List.takeWhile_append_of_pos habove, hstop, List.append_nil, List.reverse_reverse]

end Ladder
