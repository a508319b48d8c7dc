import Mathlib.Algebra.BigOperators.Group.Finset.Basic
import Mathlib.Algebra.Order.BigOperators.Group.Finset

/-!
# Sums that are constant over eras

A schedule pays the same amount at every place of an era, and the places are numbered from zero. What all
eras pay together is the sum over the eras that pay anything at all.
-/

namespace Eras

variable {era : ℕ} {pay : ℕ → ℕ}

/-- What is paid at the first `n` places. -/
def paid (era : ℕ) (pay : ℕ → ℕ) (n : ℕ) : ℕ :=
  ∑ i ∈ Finset.range n, pay (i / era)

theorem paid_mono {m n : ℕ} (h : m ≤ n) : paid era pay m ≤ paid era pay n :=
  Finset.sum_le_sum_of_subset (Finset.range_mono h)

/-- Whole eras. -/
theorem paid_mul (hera : 0 < era) (k : ℕ) :
    paid era pay (k * era) = era * ∑ e ∈ Finset.range k, pay e := by
  induction k with
  | zero => simp [paid]
  | succ k ih =>
      have hlast : ∑ i ∈ Finset.range era, pay ((k * era + i) / era) = era * pay k := by
        have hconst : ∀ i ∈ Finset.range era, pay ((k * era + i) / era) = pay k := by
          intro i hi
          rw [Nat.mul_comm, Nat.mul_add_div hera, Nat.div_eq_of_lt (Finset.mem_range.mp hi), Nat.add_zero]
        rw [Finset.sum_const_nat hconst, Finset.card_range]
      rw [paid, Nat.succ_mul, Finset.sum_range_add, hlast]
      rw [paid] at ih
      rw [ih, Finset.sum_range_succ, Nat.mul_add]

/-- **The bound.** When nothing is paid from era `k` on, no number of places pays more than the first `k`
eras do. -/
theorem paid_le (hera : 0 < era) {k : ℕ} (htail : ∀ e, k ≤ e → pay e = 0) (n : ℕ) :
    paid era pay n ≤ era * ∑ e ∈ Finset.range k, pay e := by
  have hplaces : n ≤ (k + n) * era := by
    calc n ≤ k + n := Nat.le_add_left n k
      _ ≤ (k + n) * era := Nat.le_mul_of_pos_right _ hera
  calc paid era pay n
      ≤ paid era pay ((k + n) * era) := paid_mono hplaces
    _ = era * ∑ e ∈ Finset.range (k + n), pay e := paid_mul hera (k + n)
    _ = era * ∑ e ∈ Finset.range k, pay e := by
        rw [Finset.sum_range_add]
        have hzero : ∑ i ∈ Finset.range n, pay (k + i) = 0 :=
          Finset.sum_eq_zero fun i _ => htail (k + i) (Nat.le_add_right k i)
        rw [hzero, Nat.add_zero]

end Eras
