import Haze.Lib.KeyedMap

/-!
# Machine counters in a map

A map of `UInt32` counters stands for a multiset of keys: an absent key counts zero. `bump` adds one
occurrence and `unbump` takes one away, removing the entry instead of leaving a zero behind. So a map
without zero entries is determined by its counts (`ext_count`), and taking away the occurrences that
were added gives the map back, in whatever order they are taken.
-/

namespace Counter

variable {K : Type} [DecidableEq K]

/-- How often `k` is counted. -/
def count (m : KeyedMap K UInt32) (k : K) : ℕ :=
  ((m.lookup k).getD 0).toNat

/-- No entry is zero. -/
def Positive (m : KeyedMap K UInt32) : Prop :=
  ∀ k c, m.lookup k = some c → c ≠ 0

/-- Count `k` once more. -/
def bump (m : KeyedMap K UInt32) (k : K) : KeyedMap K UInt32 :=
  m.insert k ((m.lookup k).getD 0 + 1)

/-- Count `k` once less, dropping the entry when nothing is left. -/
def unbump (m : KeyedMap K UInt32) (k : K) : KeyedMap K UInt32 :=
  match m.lookup k with
  | some c => if c ≤ 1 then m.erase k else m.insert k (c - 1)
  | none => m

theorem Positive.empty : Positive (∅ : KeyedMap K UInt32) := by
  intro k c h
  simp at h

/-- A map without zero entries is determined by its counts. -/
theorem ext_count {m m' : KeyedMap K UInt32} (hm : Positive m) (hm' : Positive m')
    (h : ∀ k, count m k = count m' k) : m = m' := by
  apply Finmap.ext_lookup
  intro k
  have hk := h k
  unfold count at hk
  have hk' : (m.lookup k).getD 0 = (m'.lookup k).getD 0 := UInt32.toNat_inj.mp hk
  -- without zero entries, absent on one side means absent on the other
  cases hc : m.lookup k with
  | none =>
      cases hc' : m'.lookup k with
      | none => rfl
      | some c' =>
          rw [hc, hc'] at hk'
          exact absurd hk'.symm (hm' k c' hc')
  | some c =>
      cases hc' : m'.lookup k with
      | none =>
          rw [hc, hc'] at hk'
          exact absurd hk' (hm k c hc)
      | some c' =>
          rw [hc, hc'] at hk'
          exact congrArg some hk'

theorem count_bump_self {m : KeyedMap K UInt32} {k : K} {limit : UInt32}
    (h : (m.lookup k).getD 0 < limit) : count (bump m k) k = count m k + 1 := by
  unfold count bump
  rw [Finmap.lookup_insert]
  rw [UInt32.lt_iff_toNat_lt] at h
  have hl := limit.toNat_lt
  simp only [Option.getD_some, UInt32.toNat_add, UInt32.reduceToNat]
  omega

theorem count_bump_ne {m : KeyedMap K UInt32} {k k' : K} (h : k' ≠ k) :
    count (bump m k) k' = count m k' := by
  unfold count bump
  rw [Finmap.lookup_insert_of_ne _ h]

/-- Counting `k` once more adds one occurrence to its count and to no other. -/
theorem count_bump {m : KeyedMap K UInt32} {k : K} {limit : UInt32}
    (h : (m.lookup k).getD 0 < limit) (k' : K) :
    count (bump m k) k' = count m k' + [k].count k' := by
  by_cases hk : k' = k
  · subst hk
    rw [count_bump_self h, List.count_singleton_self]
  · rw [count_bump_ne hk, List.count_eq_zero_of_not_mem (by simpa using hk), Nat.add_zero]

theorem Positive.bump {m : KeyedMap K UInt32} (hm : Positive m) {k : K} {limit : UInt32}
    (h : (m.lookup k).getD 0 < limit) : Positive (Counter.bump m k) := by
  intro k' c hc
  by_cases hk : k' = k
  · subst hk
    have hcount := count_bump_self h
    intro h0
    simp [count, hc, h0] at hcount
  · unfold Counter.bump at hc
    rw [Finmap.lookup_insert_of_ne _ hk] at hc
    exact hm k' c hc

/-- The occurrences of a key among those that a list of things is counted under. -/
theorem count_filterMap {α : Type} (key : α → Option K) (xs : List α) (k : K) :
    (xs.filterMap key).count k = xs.countP fun x => key x = some k := by
  rw [List.count_filterMap]
  congr 1
  funext x
  exact beq_eq_decide _ _

/-- `m'` is `m` with the occurrences of a list of keys added. -/
structure Counts (m : KeyedMap K UInt32) (keys : List K) (m' : KeyedMap K UInt32) : Prop where
  present : ∀ k ∈ keys, k ∈ m'
  frame : ∀ k, k ∉ keys → m'.lookup k = m.lookup k
  count_eq : ∀ k, count m' k = count m k + keys.count k
  positive : Positive m → Positive m'

theorem Counts.nil (m : KeyedMap K UInt32) : Counts m [] m :=
  ⟨by simp, fun _ _ => rfl, by simp, id⟩

theorem Counts.snoc {m m' : KeyedMap K UInt32} {keys : List K} {k : K} {limit : UInt32}
    (h : Counts m keys m') (hlimit : (m'.lookup k).getD 0 < limit) :
    Counts m (keys ++ [k]) (Counter.bump m' k) := by
  refine ⟨?_, ?_, ?_, ?_⟩
  · intro k' hk'
    rcases List.mem_append.mp hk' with hk' | hk'
    · exact Finmap.mem_insert.mpr (Or.inr (h.present k' hk'))
    · exact Finmap.mem_insert.mpr (Or.inl (List.mem_singleton.mp hk'))
  · intro k' hk'
    simp only [List.mem_append, List.mem_singleton, not_or] at hk'
    unfold Counter.bump
    rw [Finmap.lookup_insert_of_ne _ hk'.2]
    exact h.frame k' hk'.1
  · intro k'
    rw [count_bump hlimit, h.count_eq, List.count_append, Nat.add_assoc]
  · intro hm
    exact (h.positive hm).bump hlimit

theorem count_unbump_self (m : KeyedMap K UInt32) (k : K) :
    count (unbump m k) k = count m k - 1 := by
  unfold count unbump
  cases hc : m.lookup k with
  | none => simp [hc]
  | some c =>
      -- a last occurrence takes the entry away
      by_cases h : c ≤ 1
      · have hle : c.toNat ≤ 1 := by simpa [UInt32.le_iff_toNat_le] using h
        simp only [h, if_true, Finmap.lookup_erase, Option.getD_none, Option.getD_some]
        simp only [UInt32.toNat_zero]
        omega
      · have hle : 1 ≤ c := by
          rw [UInt32.le_iff_toNat_le] at h ⊢
          simp only [UInt32.toNat_one] at h ⊢
          omega
        simp [h, Finmap.lookup_insert, UInt32.toNat_sub_of_le _ _ hle]

theorem count_unbump_ne {m : KeyedMap K UInt32} {k k' : K} (h : k' ≠ k) :
    count (unbump m k) k' = count m k' := by
  unfold count unbump
  cases hc : m.lookup k with
  | none => rfl
  | some c =>
      by_cases hle : c ≤ 1
      · simp [hle, Finmap.lookup_erase_ne h]
      · simp [hle, Finmap.lookup_insert_of_ne _ h]

theorem Positive.unbump {m : KeyedMap K UInt32} (hm : Positive m) (k : K) :
    Positive (Counter.unbump m k) := by
  intro k' c' hc'
  unfold Counter.unbump at hc'
  cases hc : m.lookup k with
  | none =>
      rw [hc] at hc'
      exact hm k' c' hc'
  | some c =>
      rw [hc] at hc'
      by_cases hle : c ≤ 1
      · simp only [hle, if_true] at hc'
        by_cases hk : k' = k
        · subst hk
          simp at hc'
        · rw [Finmap.lookup_erase_ne hk] at hc'
          exact hm k' c' hc'
      · simp only [hle, if_false] at hc'
        by_cases hk : k' = k
        · subst hk
          rw [Finmap.lookup_insert] at hc'
          obtain rfl : c - 1 = c' := Option.some.inj hc'
          intro h0
          -- the entry that is left is not zero, since there was more than one
          have h1 : (c - 1).toNat = 0 := by rw [h0]; rfl
          rw [UInt32.le_iff_toNat_le] at hle
          rw [UInt32.toNat_sub] at h1
          simp only [UInt32.toNat_one] at hle h1
          have := c.toNat_lt
          omega
        · rw [Finmap.lookup_insert_of_ne _ hk] at hc'
          exact hm k' c' hc'

theorem Positive.foldl_unbump {m : KeyedMap K UInt32} (hm : Positive m) (keys : List K) :
    Positive (keys.foldl Counter.unbump m) := by
  induction keys generalizing m with
  | nil => exact hm
  | cons k ks ih => exact ih (hm.unbump k)

/-- Taking a list of keys away lowers each count by its occurrences in the list. -/
theorem count_foldl_unbump (m : KeyedMap K UInt32) (keys : List K) (k : K) :
    count (keys.foldl unbump m) k = count m k - keys.count k := by
  induction keys generalizing m with
  | nil => simp
  | cons a ks ih =>
      rw [List.foldl_cons, ih]
      by_cases h : k = a
      · subst h
        rw [count_unbump_self, List.count_cons_self]
        omega
      · rw [count_unbump_ne h, List.count_cons_of_ne (Ne.symm h)]

/-- **Counting is undone by uncounting**, in whatever order. -/
theorem Counts.foldl_unbump {m m' : KeyedMap K UInt32} {keys : List K} (h : Counts m keys m')
    (hm : Positive m) : keys.foldl Counter.unbump m' = m := by
  apply ext_count ((h.positive hm).foldl_unbump keys) hm
  intro k
  rw [count_foldl_unbump, h.count_eq]
  omega

end Counter
