import Mathlib.Algebra.BigOperators.Group.List.Basic
import Mathlib.Algebra.Order.BigOperators.Group.List
import Mathlib.Algebra.Order.Ring.Nat
import Mathlib.Data.List.TakeDrop
import Mathlib.Data.Nat.Find

/-!
# Paying from the front of a list, at a price that depends on what was taken

Values are taken from the front of a list until they cover a target. The target is an amount and a fee,
and the fee has to cover a price which is only known when it is known how many values were taken and
whether something is left over. So the fee starts as a guess and is raised to the price of the last
attempt, a limited number of times.

Covers and prices are in natural numbers, without a bound. A machine counts modulo some number, and may
take fewer values or more (`settleMod`). What may be said of two lists of which one covers more than the
other from the start on is at the end.
-/

namespace Cover

/-- The least number of values in front that add up to the target. -/
def cover : List ℕ → ℕ → Option ℕ
  | _, 0 => some 0
  | [], _ + 1 => none
  | v :: values, target + 1 => (cover values (target + 1 - v)).map (· + 1)

@[simp] theorem cover_zero (values : List ℕ) : cover values 0 = some 0 := by
  cases values <;> rfl

theorem cover_cons {v target : ℕ} (values : List ℕ) (h : 0 < target) :
    cover (v :: values) target = (cover values (target - v)).map (· + 1) := by
  cases target with
  | zero => cases h
  | succ target => rfl

/-- The number is determined by what it and the smaller ones add up to. -/
theorem cover_eq_some_iff {values : List ℕ} {target k : ℕ} :
    cover values target = some k ↔
      k ≤ values.length ∧ target ≤ (values.take k).sum ∧ ∀ j < k, (values.take j).sum < target := by
  induction values generalizing target k with
  | nil =>
      cases target with
      | zero => grind [cover]
      | succ target => grind [cover]
  | cons v values ih =>
      rcases Nat.eq_zero_or_pos target with rfl | hpos
      · rw [cover_zero]
        -- nothing has to be covered: no value is taken, and no smaller number is to be compared with
        constructor
        · rintro ⟨⟩
          simp
        · rintro ⟨-, -, hleast⟩
          cases k with
          | zero => rfl
          | succ k => exact absurd (hleast 0 (by omega)) (by simp)
      · rw [cover_cons values hpos, Option.map_eq_some_iff]
        -- the first value is taken, and the rest has to cover what it leaves
        constructor
        · rintro ⟨k, hk, rfl⟩
          obtain ⟨hlen, hsum, hleast⟩ := ih.mp hk
          refine ⟨by simpa using hlen, ?_, ?_⟩
          · rw [List.take_succ_cons, List.sum_cons]
            omega
          · intro j hj
            cases j with
            | zero => simpa using hpos
            | succ j =>
                have := hleast j (by omega)
                rw [List.take_succ_cons, List.sum_cons]
                omega
        · rintro ⟨hlen, hsum, hleast⟩
          cases k with
          | zero => simp at hsum; omega
          | succ k =>
              refine ⟨k, ih.mpr ⟨by simpa using hlen, ?_, ?_⟩, rfl⟩
              · rw [List.take_succ_cons, List.sum_cons] at hsum
                omega
              · intro j hj
                have := hleast (j + 1) (by omega)
                rw [List.take_succ_cons, List.sum_cons] at this
                omega

theorem sum_take_mono {values : List ℕ} {j k : ℕ} (h : j ≤ k) :
    (values.take j).sum ≤ (values.take k).sum :=
  ((List.take_prefix_take_left h).sublist).sum_le_sum (fun _ _ => Nat.zero_le _)

theorem sum_take_lt {values : List ℕ} {j k : ℕ} (hpos : ∀ v ∈ values.take k, 0 < v) (hj : j < k)
    (hk : k ≤ values.length) : (values.take j).sum < (values.take k).sum := by
  have hjlt : j < values.length := by omega
  have hmem : values[j] ∈ values.take k := List.mem_take_iff_getElem.mpr ⟨j, by omega, rfl⟩
  have hnext : (values.take (j + 1)).sum ≤ (values.take k).sum := sum_take_mono hj
  rw [List.take_succ_eq_append_getElem hjlt, List.sum_append, List.sum_singleton] at hnext
  have := hpos _ hmem
  omega

/-- What some number of values covers, the least number covers. -/
theorem exists_cover {values : List ℕ} {target k : ℕ} (h : target ≤ (values.take k).sum) :
    ∃ k' ≤ k, cover values target = some k' := by
  have hex : ∃ j, target ≤ (values.take j).sum := ⟨k, h⟩
  refine ⟨Nat.find hex, Nat.find_min' hex h, cover_eq_some_iff.mpr ⟨?_, Nat.find_spec hex, ?_⟩⟩
  · apply Nat.find_min' hex
    rw [List.take_length]
    exact h.trans ((List.take_sublist k values).sum_le_sum fun _ _ => Nat.zero_le _)
  · intro j hj
    exact Nat.lt_of_not_le (Nat.find_min hex hj)

/-- In falling order, only positive values are taken. -/
theorem pos_of_cover {values : List ℕ} {target k : ℕ} (hsorted : values.Pairwise (· ≥ ·))
    (h : cover values target = some k) : ∀ v ∈ values.take k, 0 < v := by
  obtain ⟨hk, hsum, hleast⟩ := cover_eq_some_iff.mp h
  intro v hv
  obtain ⟨i, hi, rfl⟩ := List.mem_take_iff_getElem.mp hv
  -- the last one was needed, and none in front of it is smaller
  have hlast := hleast (k - 1) (by omega)
  have hlt : k - 1 < values.length := by omega
  rw [show k = k - 1 + 1 by omega, List.take_succ_eq_append_getElem hlt, List.sum_append,
    List.sum_singleton] at hsum
  have hpos : 0 < values[k - 1] := by omega
  rcases Nat.eq_or_lt_of_le (show i ≤ k - 1 by omega) with heq | hlt'
  · simpa only [heq] using hpos
  · exact hpos.trans_le (List.pairwise_iff_getElem.mp hsorted _ _ _ hlt hlt')

/-! ## Fitting the fee

The attempts of a machine, whose sums wrap. In natural numbers, the price of one attempt is a function of
the target. -/

/-- The price of covering a target: how many values are taken, and whether something is left over. -/
def required (price : ℕ → Bool → ℕ) (values : List ℕ) (target : ℕ) : Option ℕ :=
  (cover values target).map fun k => price k (target < (values.take k).sum)

/-- How many values in front a machine takes that counts modulo `m`, until its total reaches the target. -/
def coverMod (m target : ℕ) : ℕ → List ℕ → Option ℕ
  | total, [] => if target ≤ total then some 0 else none
  | total, v :: values =>
      if target ≤ total then some 0 else (coverMod m target ((total + v) % m) values).map (· + 1)

/-- Try the fee, and then the price of what came out, until the fee covers the price; `n` attempts. The
fee at which that settles, and how many values are taken for it. -/
def settleMod (m : ℕ) (price : ℕ → Bool → ℕ) (values : List ℕ) (amount : ℕ) : ℕ → ℕ → Option (ℕ × ℕ)
  | 0, _ => none
  | n + 1, fee =>
      let target := (amount + fee) % m
      match coverMod m target 0 values with
      | none => none
      | some k =>
          let p := price k (target < (values.take k).sum % m)
          if p ≤ fee then some (fee, k) else settleMod m price values amount n p

/-! ## Values that reach further -/

section Dominated

variable {price : ℕ → Bool → ℕ} {values values' : List ℕ}

/-- From the start on, `values'` adds up to at least as much. -/
def Dominates (values' values : List ℕ) : Prop :=
  ∀ k, (values.take k).sum ≤ (values'.take k).sum

theorem cover_of_dominates {target target' k : ℕ} (hdom : Dominates values' values)
    (hle : target' ≤ target) (h : cover values target = some k) :
    ∃ k' ≤ k, cover values' target' = some k' :=
  exists_cover (hle.trans ((cover_eq_some_iff.mp h).2.1.trans (hdom k)))

/-- A price that nothing exceeds on the way to a target bounds the price of every smaller target, for
values that reach further. -/
theorem required_of_dominates {target target' p k : ℕ} (hdom : Dominates values' values)
    (hle : target' ≤ target) (hcover : cover values target = some k)
    (hprice : ∀ k' ≤ k, ∀ change, price k' change ≤ p) :
    ∃ p' ≤ p, required price values' target' = some p' := by
  obtain ⟨k', hk', hcover'⟩ := cover_of_dominates hdom hle hcover
  exact ⟨_, hprice k' hk' _, by rw [required, hcover', Option.map_some]⟩

/-- In falling order, no values of a list add up to more than as many in front. -/
theorem sum_le_sum_take {values xs : List ℕ} (hsorted : values.Pairwise (· ≥ ·))
    (hsub : xs.Subperm values) : xs.sum ≤ (values.take xs.length).sum := by
  induction values generalizing xs with
  | nil => simp [List.subperm_nil.mp hsub]
  | cons v values ih =>
      obtain ⟨hv, hsorted⟩ := List.pairwise_cons.mp hsorted
      have herase : (xs.erase v).Subperm values := by simpa using hsub.erase v
      have hrest := ih hsorted herase
      by_cases hmem : v ∈ xs
      · have hperm := List.perm_cons_erase hmem
        rw [hperm.sum_eq, hperm.length_eq, List.sum_cons, List.length_cons, List.take_succ_cons,
          List.sum_cons]
        omega
      · rw [List.erase_of_not_mem hmem] at hrest
        refine hrest.trans ?_
        -- the first value is at least as large as the one that is left out for it
        cases hlen : xs.length with
        | zero => simp
        | succ n =>
            rw [List.take_succ_cons, List.sum_cons]
            by_cases hn : n < values.length
            · rw [List.take_succ_eq_append_getElem hn, List.sum_append, List.sum_singleton]
              have := hv _ (List.getElem_mem hn)
              omega
            · rw [List.take_of_length_le (by omega), List.take_of_length_le (by omega)]
              omega

/-- One larger value, and the list in falling order again: from the start on it adds up to more. -/
theorem dominates_of_perm {v v' : ℕ} {rest : List ℕ} (hle : v ≤ v')
    (hsorted' : values'.Pairwise (· ≥ ·)) (hperm : values.Perm (v :: rest))
    (hperm' : values'.Perm (v' :: rest)) : Dominates values' values := by
  intro k
  generalize hxs : values.take k = xs
  have hlength : xs.length ≤ k := by
    -- a part of the old list becomes one of the new list by exchanging the value, if it has it
    rw [← hxs]
    exact List.length_take_le k values
  have hsub : xs.Subperm (v :: rest) :=
    (hxs ▸ (List.take_sublist k values).subperm).trans hperm.subperm
  have herase : (xs.erase v).Subperm rest := by simpa using hsub.erase v
  have hfront : ∀ ys : List ℕ, ys.Subperm values' → ys.length ≤ k → ys.sum ≤ (values'.take k).sum :=
    fun ys hys hlen => (sum_le_sum_take hsorted' hys).trans (sum_take_mono hlen)
  by_cases hmem : v ∈ xs
  · have hxs' := List.perm_cons_erase hmem
    have hsame : (v' :: xs.erase v).length = xs.length := by
      rw [hxs'.length_eq, List.length_cons, List.length_cons]
    have hbound := hfront (v' :: xs.erase v)
      (((List.subperm_cons v').mpr herase).trans hperm'.symm.subperm) (hsame ▸ hlength)
    rw [hxs'.sum_eq, List.sum_cons]
    rw [List.sum_cons] at hbound
    omega
  · rw [List.erase_of_not_mem hmem] at herase
    exact hfront xs (herase.trans ((List.sublist_cons_self v' rest).subperm.trans
      hperm'.symm.subperm)) hlength

end Dominated

end Cover
