import Haze.Lib.Coins
import Haze.Lib.KeyedMap

/-!
# Trees that stand for a set or a list

A tree on disk knows nothing but keys and values. Two uses of one:

* `Holds`: its keys are those of the coins that exist, and a batch of removals and insertions moves
  the coins along;
* `Indexes`: it has one entry for each record of a list, under the record's key, which needs the keys
  to be distinct.
-/

namespace KeyedMap

variable {K V : Type} [DecidableEq K]

theorem mem_eraseAll {m : KeyedMap K V} {keys : List K} {k : K} :
    k ∈ m.eraseAll keys ↔ k ∈ m ∧ k ∉ keys := by
  by_cases hk : k ∈ keys
  · simp [Finmap.mem_iff, lookup_eraseAll_of_mem hk, hk]
  · simp [Finmap.mem_iff, lookup_eraseAll_of_notMem hk, hk]

theorem mem_insertAll {m : KeyedMap K V} {es : List (K × V)} {k : K} :
    k ∈ m.insertAll es ↔ k ∈ es.map Prod.fst ∨ k ∈ m := by
  induction es generalizing m with
  | nil => simp
  | cons e es ih =>
      rw [insertAll_cons, ih, Finmap.mem_insert, List.map_cons, List.mem_cons]
      tauto

section Sorted

variable {K : Type} [LinearOrder K]

theorem sortedKeys_spec (m : KeyedMap K V) :
    m.sortedKeys.Nodup ∧ ∀ k, k ∈ m.sortedKeys ↔ k ∈ m := by
  have hspec : ∀ keys : Multiset K, keys.Nodup → ∀ (f : List K → List K)
      (hf : ∀ l, (f l).Perm l) (h : ∀ l l', l.Perm l' → f l = f l'),
      (Quot.liftOn keys f h : List K).Nodup ∧ ∀ k, k ∈ Quot.liftOn keys f h ↔ k ∈ keys := by
    intro keys hnd f hf h
    induction keys using Quotient.inductionOn with
    | _ l => exact ⟨(hf l).nodup_iff.mpr hnd, fun k => (hf l).mem_iff⟩
  obtain ⟨hnd, hmem⟩ := hspec m.keys.val m.keys.nodup (List.insertionSort (· ≤ ·))
    (List.perm_insertionSort _) _
  exact ⟨hnd, fun k => (hmem k).trans Finmap.mem_keys⟩

theorem mem_sortedValues {m : KeyedMap K V} {v : V} :
    v ∈ m.sortedValues ↔ ∃ k, m.lookup k = some v := by
  simp only [sortedValues, List.mem_filterMap, (sortedKeys_spec m).2]
  constructor
  · rintro ⟨k, -, hk⟩
    exact ⟨k, hk⟩
  · rintro ⟨k, hk⟩
    exact ⟨k, Finmap.mem_of_lookup_eq_some hk, hk⟩

/-- The values, each under the key it carries. -/
def Keyed (key : V → K) (m : KeyedMap K V) : Prop :=
  ∀ k v, m.lookup k = some v → key v = k

theorem Keyed.empty (key : V → K) : Keyed key ∅ := by
  intro k v h
  rw [Finmap.lookup_empty] at h
  cases h

theorem Keyed.insert {key : V → K} {m : KeyedMap K V} (hm : Keyed key m) {k : K} {v : V}
    (hv : key v = k) : Keyed key (m.insert k v) := by
  intro k' v' h
  by_cases hk : k' = k
  · subst hk
    rw [Finmap.lookup_insert, Option.some.injEq] at h
    rw [← h, hv]
  · rw [Finmap.lookup_insert_of_ne _ hk] at h
    exact hm k' v' h

theorem Keyed.lookup_iff {key : V → K} {m : KeyedMap K V} (hm : Keyed key m) (k : K) (v : V) :
    m.lookup k = some v ↔ v ∈ m.sortedValues ∧ key v = k := by
  rw [mem_sortedValues]
  constructor
  · intro h
    exact ⟨⟨k, h⟩, hm k v h⟩
  · rintro ⟨⟨k', h⟩, rfl⟩
    rwa [hm k' v h]

/-- Maps whose values carry their keys are told apart by their values. -/
theorem Keyed.ext {key : V → K} {m m' : KeyedMap K V} (hm : Keyed key m) (hm' : Keyed key m')
    (h : m.sortedValues = m'.sortedValues) : m = m' := by
  apply Finmap.ext_lookup
  intro k
  ext v
  rw [hm.lookup_iff, hm'.lookup_iff, h]

end Sorted

/-! ## Sets

A tree of keys alone holds a set: written and read back key by key. -/

section Holds

variable {C : Type} [DecidableEq C] {key : C → K} {m : KeyedMap K V} {coins : Finset C}

/-- The keys of the tree are those of the coins. -/
def Holds (key : C → K) (m : KeyedMap K V) (coins : Finset C) : Prop :=
  ∀ k, k ∈ m ↔ ∃ c ∈ coins, key c = k

omit [DecidableEq K] [DecidableEq C] in
theorem Holds.empty : Holds key (∅ : KeyedMap K V) ∅ := by
  intro k
  simp [Finmap.notMem_empty]

/-- Removing the keys of some coins and inserting those of others. -/
theorem Holds.batch (hinj : Function.Injective key) (h : Holds key m coins) (ins : List C)
    {outs : List C} {es : List (K × V)} (hes : es.map Prod.fst = outs.map key) :
    Holds key (insertAll (eraseAll m (ins.map key)) es)
      (Coins.create (Coins.spend coins ins) outs) := by
  intro k
  simp only [mem_insertAll, mem_eraseAll, hes, h k, List.mem_map, Coins.mem_create, Coins.mem_spend]
  constructor
  · rintro (⟨c, hc, rfl⟩ | ⟨⟨c, hc, rfl⟩, hnot⟩)
    · exact ⟨c, Or.inl hc, rfl⟩
    · exact ⟨c, Or.inr ⟨hc, fun hin => hnot ⟨c, hin, rfl⟩⟩, rfl⟩
  · rintro ⟨c, hc | ⟨hc, hnot⟩, rfl⟩
    · exact Or.inl ⟨c, hc, rfl⟩
    · refine Or.inr ⟨⟨c, hc, rfl⟩, ?_⟩
      rintro ⟨c', hc', heq⟩
      exact hnot (hinj heq ▸ hc')

/-- Reading the keys back gives the coins. -/
theorem Holds.decode {K : Type} [LinearOrder K] {key : C → K} {m : KeyedMap K V}
    {decode : K → Option C} (hdecode : ∀ c, decode (key c) = some c) (h : Holds key m coins) :
    Coins.create ∅ (m.sortedKeys.filterMap decode) = coins := by
  ext c
  simp only [Coins.mem_create, List.mem_filterMap, (sortedKeys_spec m).2, Finset.notMem_empty,
    or_false]
  constructor
  · rintro ⟨k, hk, hdec⟩
    obtain ⟨c', hc', rfl⟩ := (h k).mp hk
    rw [hdecode] at hdec
    cases hdec
    exact hc'
  · intro hc
    exact ⟨key c, (h _).mpr ⟨c, hc, rfl⟩, hdecode c⟩

end Holds

/-! ## Lists

A tree of records under their keys holds a list in which no key comes twice; the order is that of the keys.
-/

section Indexes

variable {key : V → K} {m : KeyedMap K V} {vs : List V}

/-- The tree has one entry for each record, under its key. -/
structure Indexes (key : V → K) (m : KeyedMap K V) (vs : List V) : Prop where
  nodup : (vs.map key).Nodup
  lookup : ∀ k v, m.lookup k = some v ↔ v ∈ vs ∧ key v = k

theorem Indexes.empty : Indexes key ∅ [] :=
  ⟨List.nodup_nil, by simp⟩

/-- Adding records with new keys. -/
theorem Indexes.insertAll (h : Indexes key m vs) (ws : List V) (hnd : (ws.map key).Nodup)
    (hnew : ∀ k ∈ ws.map key, k ∉ vs.map key) :
    Indexes key (KeyedMap.insertAll m (ws.map fun w => (key w, w))) (vs ++ ws) := by
  have hfst : (ws.map fun w => (key w, w)).map Prod.fst = ws.map key := by simp
  refine ⟨?_, ?_⟩
  · rw [List.map_append, List.nodup_append']
    exact ⟨h.nodup, hnd, fun k hk hk' => hnew k hk' hk⟩
  · intro k v
    rw [List.mem_append]
    -- a key of the new records finds the new one, every other key what it found before
    by_cases hk : k ∈ ws.map key
    · obtain ⟨w, hw, rfl⟩ := List.mem_map.mp hk
      have hentry : (key w, w) ∈ ws.map fun w => (key w, w) := List.mem_map.mpr ⟨w, hw, rfl⟩
      rw [lookup_insertAll_of_mem (by rwa [hfst]) hentry, Option.some.injEq]
      constructor
      · rintro rfl
        exact ⟨Or.inr hw, rfl⟩
      · rintro ⟨hv | hv, heq⟩
        · exact absurd (heq ▸ List.mem_map_of_mem hv) (hnew _ hk)
        · exact List.inj_on_of_nodup_map hnd hw hv heq.symm
    · rw [lookup_insertAll_of_notMem (by rwa [hfst]), h.lookup]
      constructor
      · rintro ⟨hv, heq⟩
        exact ⟨Or.inl hv, heq⟩
      · rintro ⟨hv | hv, heq⟩
        · exact ⟨hv, heq⟩
        · exact absurd (heq ▸ List.mem_map_of_mem hv) hk

/-- Removing keys. -/
theorem Indexes.eraseAll (h : Indexes key m vs) (ks : List K) :
    Indexes key (KeyedMap.eraseAll m ks) (vs.filter fun v => key v ∉ ks) := by
  refine ⟨h.nodup.sublist (List.filter_sublist.map key), ?_⟩
  intro k v
  rw [List.mem_filter, decide_eq_true_eq]
  by_cases hk : k ∈ ks
  · rw [lookup_eraseAll_of_mem hk]
    constructor
    · rintro ⟨⟩
    · rintro ⟨⟨-, hnot⟩, rfl⟩
      exact absurd hk hnot
  · rw [lookup_eraseAll_of_notMem hk, h.lookup]
    constructor
    · rintro ⟨hv, rfl⟩
      exact ⟨⟨hv, hk⟩, rfl⟩
    · rintro ⟨⟨hv, -⟩, heq⟩
      exact ⟨hv, heq⟩

/-- Reading the values back gives the records, in some order. -/
theorem Indexes.perm_sortedValues {K : Type} [LinearOrder K] {key : V → K} {m : KeyedMap K V}
    (h : Indexes key m vs) : m.sortedValues.Perm vs := by
  obtain ⟨hnd, hmem⟩ := sortedKeys_spec m
  have hnodup : m.sortedValues.Nodup := by
    refine hnd.filterMap ?_
    intro k k' v hk hk'
    rw [Option.mem_def, h.lookup] at hk hk'
    exact hk.2.symm.trans hk'.2
  refine (List.perm_ext_iff_of_nodup hnodup (List.Nodup.of_map key h.nodup)).mpr ?_
  intro v
  simp only [sortedValues, List.mem_filterMap, hmem, h.lookup]
  constructor
  · rintro ⟨k, -, hv, -⟩
    exact hv
  · intro hv
    refine ⟨key v, ?_, hv, rfl⟩
    rw [Finmap.mem_iff]
    exact ⟨v, (h.lookup _ _).mpr ⟨hv, rfl⟩⟩

end Indexes

end KeyedMap
