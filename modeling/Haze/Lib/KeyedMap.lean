import Mathlib.Data.Finmap
import Mathlib.Data.List.Induction
import Mathlib.Data.List.Sort
import Mathlib.Tactic.Set

/-!
# Keyed maps that are edited and restored

Finite maps with extensional equality are Mathlib's `Finmap`. This module adds the bulk operations a
registry with an undo log is made of:

* `insertFrom` copies the entries of a candidate map for a list of new keys, and reports them;
* `replaceFrom` does the same for keys that are present, and reports the entries it replaced;
* `eraseAll` and `insertAll` are the two halves of the undo.

`undo_edit` is the law that ties them together: erasing the new keys and putting the replaced entries
back restores the map, whatever the candidate held.
-/

/-- A finite map with one value type. -/
abbrev KeyedMap (K V : Type) := Finmap fun _ : K => V

namespace KeyedMap

variable {K V : Type}

section Sorted

variable [LinearOrder K]

/-- The keys in ascending order. `Finset.sort` is the same list; insertion sort keeps it executable
inside the kernel. -/
def sortedKeys (m : KeyedMap K V) : List K :=
  Quot.liftOn m.keys.val (List.insertionSort (· ≤ ·)) fun _ _ h =>
    (((List.perm_insertionSort _ _).trans h).trans (List.perm_insertionSort _ _).symm).eq_of_pairwise'
      (List.pairwise_insertionSort _ _) (List.pairwise_insertionSort _ _)

/-- The values, in ascending order of their keys. -/
def sortedValues (m : KeyedMap K V) : List V :=
  m.sortedKeys.filterMap fun k => m.lookup k

end Sorted

variable [DecidableEq K]

/-- Copy the candidate's entry for each key of the list, reporting the entries copied. A key the
candidate lacks is skipped. -/
def insertFrom (cand m : KeyedMap K V) (keys : List K) : KeyedMap K V × List (K × V) :=
  keys.foldl (fun acc k =>
    match cand.lookup k with
    | some v => (acc.1.insert k v, acc.2 ++ [(k, v)])
    | none => acc) (m, [])

/-- Overwrite the entry of each key of the list with the candidate's, reporting the entries that
were overwritten. A key either map lacks is skipped. -/
def replaceFrom (cand m : KeyedMap K V) (keys : List K) : KeyedMap K V × List (K × V) :=
  keys.foldl (fun acc k =>
    match acc.1.lookup k, cand.lookup k with
    | some old, some v => (acc.1.insert k v, acc.2 ++ [(k, old)])
    | _, _ => acc) (m, [])

/-- Erase every key of the list. -/
def eraseAll (m : KeyedMap K V) (keys : List K) : KeyedMap K V :=
  keys.foldl (fun acc k => acc.erase k) m

/-- Keep the entries whose key satisfies `p`. -/
def retain (p : K → Bool) (m : KeyedMap K V) : KeyedMap K V :=
  ⟨m.entries.filter fun e => p e.1, by
    obtain ⟨entries, hnodup⟩ := m
    induction entries using Quotient.inductionOn with
    | _ l => exact List.NodupKeys.sublist List.filter_sublist hnodup⟩

/-- Keep the entries whose value satisfies `p`. -/
def retainValues (p : V → Bool) (m : KeyedMap K V) : KeyedMap K V :=
  ⟨m.entries.filter fun e => p e.2, by
    obtain ⟨entries, hnodup⟩ := m
    induction entries using Quotient.inductionOn with
    | _ l => exact List.NodupKeys.sublist List.filter_sublist hnodup⟩

/-- Insert every entry of the list, in order. -/
def insertAll (m : KeyedMap K V) (entries : List (K × V)) : KeyedMap K V :=
  entries.foldl (fun acc e => acc.insert e.1 e.2) m

theorem keys_insert (m : KeyedMap K V) (k : K) (v : V) : (m.insert k v).keys = insert k m.keys := by
  ext k'
  rw [Finset.mem_insert, Finmap.mem_keys, Finmap.mem_keys, Finmap.mem_insert]

theorem keys_insert_of_mem {m : KeyedMap K V} {k : K} (h : k ∈ m) (v : V) :
    (m.insert k v).keys = m.keys := by
  rw [keys_insert, Finset.insert_eq_of_mem (Finmap.mem_keys.mpr h)]

/-! ## Lookups after a bulk operation

Whatever is done to many keys at once, a single key sees one of two things: the change, if it is among them,
or its old entry. -/

@[simp] theorem eraseAll_nil (m : KeyedMap K V) : m.eraseAll [] = m := rfl

theorem eraseAll_append (m : KeyedMap K V) (ks : List K) (k : K) :
    m.eraseAll (ks ++ [k]) = (m.eraseAll ks).erase k := by
  simp [eraseAll]

theorem eraseAll_eraseAll (m : KeyedMap K V) (ks ks' : List K) :
    (m.eraseAll ks).eraseAll ks' = m.eraseAll (ks ++ ks') :=
  List.foldl_append.symm

theorem lookup_eraseAll_of_mem {m : KeyedMap K V} {keys : List K} {k : K} (h : k ∈ keys) :
    (m.eraseAll keys).lookup k = none := by
  induction keys using List.reverseRecOn with
  | nil => cases h
  | append_singleton ks a ih =>
      rw [eraseAll_append]
      by_cases hka : k = a
      · subst hka
        exact Finmap.lookup_erase _ _
      · rw [Finmap.lookup_erase_ne hka]
        exact ih (by simpa [hka] using h)

theorem lookup_eraseAll_of_notMem {m : KeyedMap K V} {keys : List K} {k : K} (h : k ∉ keys) :
    (m.eraseAll keys).lookup k = m.lookup k := by
  induction keys using List.reverseRecOn with
  | nil => rfl
  | append_singleton ks a ih =>
      simp only [List.mem_append, List.mem_singleton, not_or] at h
      rw [eraseAll_append, Finmap.lookup_erase_ne h.2, ih h.1]

theorem lookup_retain (p : K → Bool) (m : KeyedMap K V) (k : K) :
    (m.retain p).lookup k = if p k then m.lookup k else none := by
  have hmem : ∀ v, v ∈ (m.retain p).lookup k ↔ p k = true ∧ v ∈ m.lookup k := by
    intro v
    rw [Finmap.mem_lookup_iff, Finmap.mem_lookup_iff, retain, Multiset.mem_filter, and_comm]
  refine Option.ext fun v => ?_
  refine (hmem v).trans ?_
  split
  next hp => exact and_iff_right hp
  next hp => simp [hp]

theorem lookup_retainValues (p : V → Bool) (m : KeyedMap K V) (k : K) :
    (m.retainValues p).lookup k = (m.lookup k).filter p := by
  refine Option.ext fun v => ?_
  rw [← Option.mem_def, ← Option.mem_def, Option.mem_filter_iff, Finmap.mem_lookup_iff,
    Finmap.mem_lookup_iff, retainValues, Multiset.mem_filter]

@[simp] theorem insertAll_nil (m : KeyedMap K V) : m.insertAll [] = m := rfl

theorem insertAll_cons (m : KeyedMap K V) (e : K × V) (es : List (K × V)) :
    m.insertAll (e :: es) = insertAll (m.insert e.1 e.2) es := rfl

theorem lookup_insertAll_of_notMem {m : KeyedMap K V} {es : List (K × V)} {k : K}
    (h : k ∉ es.map Prod.fst) : (m.insertAll es).lookup k = m.lookup k := by
  induction es generalizing m with
  | nil => rfl
  | cons e es ih =>
      simp only [List.map_cons, List.mem_cons, not_or] at h
      rw [insertAll_cons, ih h.2, Finmap.lookup_insert_of_ne _ h.1]

theorem lookup_insertAll_of_mem {m : KeyedMap K V} {es : List (K × V)} {k : K} {v : V}
    (hnd : (es.map Prod.fst).Nodup) (h : (k, v) ∈ es) : (m.insertAll es).lookup k = some v := by
  induction es generalizing m with
  | nil => cases h
  | cons e es ih =>
      rw [List.map_cons, List.nodup_cons] at hnd
      rw [insertAll_cons]
      rcases List.mem_cons.mp h with rfl | hes
      · rw [lookup_insertAll_of_notMem hnd.1, Finmap.lookup_insert]
      · exact ih hnd.2 hes

theorem insertFrom_append (cand m : KeyedMap K V) (ks : List K) (k : K) :
    insertFrom cand m (ks ++ [k]) =
      match cand.lookup k with
      | some v => ((insertFrom cand m ks).1.insert k v, (insertFrom cand m ks).2 ++ [(k, v)])
      | none => insertFrom cand m ks := by
  simp [insertFrom]

theorem lookup_insertFrom_of_notMem {cand m : KeyedMap K V} {keys : List K} {k : K}
    (h : k ∉ keys) : (insertFrom cand m keys).1.lookup k = m.lookup k := by
  induction keys using List.reverseRecOn with
  | nil => rfl
  | append_singleton ks a ih =>
      simp only [List.mem_append, List.mem_singleton, not_or] at h
      rw [insertFrom_append]
      cases hc : cand.lookup a with
      | none => exact ih h.1
      | some v => rw [Finmap.lookup_insert_of_ne _ h.2, ih h.1]

theorem lookup_insertFrom_of_mem {cand m : KeyedMap K V} {keys : List K} {k : K} (h : k ∈ keys)
    (hcand : k ∈ cand) : (insertFrom cand m keys).1.lookup k = cand.lookup k := by
  obtain ⟨v, hv⟩ := Finmap.mem_iff.mp hcand
  induction keys using List.reverseRecOn with
  | nil => cases h
  | append_singleton ks a ih =>
      rw [insertFrom_append]
      by_cases hka : k = a
      · subst hka
        rw [hv, Finmap.lookup_insert]
      · have hks := ih (by simpa [hka] using h)
        cases cand.lookup a with
        | none => exact hks
        | some w => rw [Finmap.lookup_insert_of_ne _ hka, hks]

/-- Copying every key on which the candidate differs turns the map into the candidate. -/
theorem insertFrom_eq {cand m : KeyedMap K V} {keys : List K} (hmem : ∀ k ∈ keys, k ∈ cand)
    (hframe : ∀ k, k ∉ keys → cand.lookup k = m.lookup k) : (insertFrom cand m keys).1 = cand := by
  apply Finmap.ext_lookup
  intro k
  by_cases hk : k ∈ keys
  · exact lookup_insertFrom_of_mem hk (hmem k hk)
  · rw [lookup_insertFrom_of_notMem hk, hframe k hk]

theorem replaceFrom_append (cand m : KeyedMap K V) (ks : List K) (k : K) :
    replaceFrom cand m (ks ++ [k]) =
      match (replaceFrom cand m ks).1.lookup k, cand.lookup k with
      | some old, some v =>
          ((replaceFrom cand m ks).1.insert k v, (replaceFrom cand m ks).2 ++ [(k, old)])
      | _, _ => replaceFrom cand m ks := by
  simp [replaceFrom]

/-- What `replaceFrom` leaves behind: the report lists each replaced key once, with the entry it had
before, and every key outside the report is untouched. -/
structure ReplaceSpec (m : KeyedMap K V) (keys : List K) (r : KeyedMap K V × List (K × V)) :
    Prop where
  nodup : (r.2.map Prod.fst).Nodup
  subset : ∀ e ∈ r.2, e.1 ∈ keys
  before : ∀ e ∈ r.2, m.lookup e.1 = some e.2
  frame : ∀ k, k ∉ r.2.map Prod.fst → r.1.lookup k = m.lookup k

theorem replaceFrom_spec (cand m : KeyedMap K V) {keys : List K} (hnd : keys.Nodup) :
    ReplaceSpec m keys (replaceFrom cand m keys) := by
  induction keys using List.reverseRecOn with
  | nil => exact ⟨List.nodup_nil, by simp [replaceFrom], by simp [replaceFrom], fun _ _ => rfl⟩
  | append_singleton ks a ih =>
      obtain ⟨hks, hka⟩ : ks.Nodup ∧ a ∉ ks := by
        rw [List.nodup_append'] at hnd
        exact ⟨hnd.1, fun h => hnd.2.2 h (List.mem_singleton_self a)⟩
      have spec := ih hks
      rw [replaceFrom_append]
      split
      -- both maps know the key: its old entry is noted, and is still that of the start
      next old v hold hcand =>
        have hfresh : a ∉ (replaceFrom cand m ks).2.map Prod.fst := by
          intro hmem
          obtain ⟨e, he, rfl⟩ := List.mem_map.mp hmem
          exact hka (spec.subset e he)
        have hm : m.lookup a = some old := by rw [← spec.frame a hfresh, hold]
        refine ⟨?_, ?_, ?_, ?_⟩
        · rw [List.map_append, List.nodup_append']
          refine ⟨spec.nodup, List.nodup_singleton _, ?_⟩
          intro k hk hk'
          rw [List.map_singleton, List.mem_singleton] at hk'
          obtain rfl : k = a := hk'
          exact hfresh hk
        · intro e he
          rcases List.mem_append.mp he with he | he
          · exact List.mem_append_left _ (spec.subset e he)
          · rw [List.mem_singleton.mp he]
            exact List.mem_append_right _ (List.mem_singleton_self a)
        · intro e he
          rcases List.mem_append.mp he with he | he
          · exact spec.before e he
          · rw [List.mem_singleton.mp he]
            exact hm
        · intro k hk
          simp only [List.map_append, List.mem_append, not_or] at hk
          have hne : k ≠ a := by simpa using hk.2
          rw [Finmap.lookup_insert_of_ne _ hne]
          exact spec.frame k hk.1
      -- otherwise nothing is written
      next =>
        exact ⟨spec.nodup, fun e he => List.mem_append_left _ (spec.subset e he), spec.before,
          spec.frame⟩

/-- **Undoing an edit.** Erase the new keys and put the replaced entries back: the map is what it
was, as long as the new keys were absent, and no key is both new and replaced or replaced twice. -/
theorem undo_edit (cand m : KeyedMap K V) {new upd : List K} (hnew : ∀ k ∈ new, k ∉ m)
    (hupd : upd.Nodup) (hdisj : ∀ k ∈ new, k ∉ upd) :
    insertAll (eraseAll (replaceFrom cand (insertFrom cand m new).1 upd).1 new)
      (replaceFrom cand (insertFrom cand m new).1 upd).2 = m := by
  have spec := replaceFrom_spec cand (insertFrom cand m new).1 hupd
  set r := replaceFrom cand (insertFrom cand m new).1 upd
  apply Finmap.ext_lookup
  intro k
  by_cases hr : k ∈ r.2.map Prod.fst
  · obtain ⟨e, he, rfl⟩ := List.mem_map.mp hr
    have hnotnew : e.1 ∉ new := fun h => hdisj _ h (spec.subset e he)
    rw [lookup_insertAll_of_mem spec.nodup he, ← lookup_insertFrom_of_notMem hnotnew]
    exact (spec.before e he).symm
  · rw [lookup_insertAll_of_notMem hr]
    by_cases hk : k ∈ new
    · rw [lookup_eraseAll_of_mem hk, Finmap.lookup_eq_none.mpr (hnew k hk)]
    · rw [lookup_eraseAll_of_notMem hk, spec.frame k hr, lookup_insertFrom_of_notMem hk]

/-! ## Writing each key once

A loop that refuses a key it has met before writes each key once. So what it leaves behind can be said key
by key, without the order. -/

/-- `m'` is `m` after writing the keys of a list, no key twice. `seen` holds at least those keys. -/
structure Written (m : KeyedMap K V) (keys : List K) (seen : Finset K) (m' : KeyedMap K V) :
    Prop where
  nodup : keys.Nodup
  subset : ∀ k ∈ keys, k ∈ seen
  present : ∀ k ∈ keys, k ∈ m'
  frame : ∀ k, k ∉ keys → m'.lookup k = m.lookup k

theorem Written.nil (m : KeyedMap K V) : Written m [] ∅ m :=
  ⟨List.nodup_nil, by simp, by simp, fun _ _ => rfl⟩

variable {m m' : KeyedMap K V} {keys : List K} {seen : Finset K} {k : K}

/-- Writing an unseen key leaves the entries written before. -/
theorem Written.lookup_insert (h : Written m keys seen m') (hk : k ∉ seen) {v : V} {k' : K}
    (hk' : k' ∈ keys) : (m'.insert k v).lookup k' = m'.lookup k' := by
  apply Finmap.lookup_insert_of_ne
  rintro rfl
  exact hk (h.subset _ hk')

theorem Written.snoc (h : Written m keys seen m') (hk : k ∉ seen) (v : V) :
    Written m (keys ++ [k]) (insert k seen) (m'.insert k v) := by
  have hfresh : k ∉ keys := fun hmem => hk (h.subset k hmem)
  refine ⟨?_, ?_, ?_, ?_⟩
  · rw [List.nodup_append']
    refine ⟨h.nodup, List.nodup_singleton k, ?_⟩
    intro i hi hi'
    obtain rfl := List.mem_singleton.mp hi'
    exact hfresh hi
  · have hsub := h.subset
    grind
  · intro i hi
    rw [Finmap.mem_insert]
    rcases List.mem_append.mp hi with hi | hi
    · exact Or.inr (h.present i hi)
    · exact Or.inl (List.mem_singleton.mp hi)
  · intro i hi
    simp only [List.mem_append, List.mem_singleton, not_or] at hi
    rw [Finmap.lookup_insert_of_ne _ hi.2]
    exact h.frame i hi.1

/-- Of the entries that are written, one is for a given key. -/
theorem filter_key_eq {α : Type} {key : α → K} {ops : List α} {op : α} (hnd : (ops.map key).Nodup)
    (hop : op ∈ ops) : ops.filter (fun x => key x = key op) = [op] := by
  induction ops with
  | nil => cases hop
  | cons a ops ih =>
      rw [List.map_cons, List.nodup_cons] at hnd
      obtain ⟨ha, hnd⟩ := hnd
      rcases List.mem_cons.mp hop with rfl | hop
      · have hnone : ops.filter (fun x => key x = key op) = [] := by
          rw [List.filter_eq_nil_iff]
          intro x hx hkey
          exact ha (List.mem_map.mpr ⟨x, hx, of_decide_eq_true hkey⟩)
        rw [List.filter_cons_of_pos (by simp), hnone]
      · have hne : key a ≠ key op := by
          intro hkey
          exact ha (List.mem_map.mpr ⟨op, hop, hkey.symm⟩)
        rw [List.filter_cons_of_neg (by simpa using hne), ih hnd hop]

section Entries

variable {α : Type} {key : α → K} {new : List K} {upd : List α}

/-- An entry of the old map is updated once, or left as it is. -/
theorem Written.updated_or_kept (h : Written m (new ++ upd.map key) seen m')
    (hnew : ∀ k ∈ new, k ∉ m) (hk : k ∈ m) :
    (∃ op ∈ upd, key op = k ∧ upd.filter (fun x => key x = k) = [op]) ∨
      m'.lookup k = m.lookup k := by
  by_cases hupd : k ∈ upd.map key
  · obtain ⟨op, hop, rfl⟩ := List.mem_map.mp hupd
    have hnd := (List.nodup_append'.mp h.nodup).2.1
    exact Or.inl ⟨op, hop, rfl, filter_key_eq hnd hop⟩
  · right
    apply h.frame
    rw [List.mem_append]
    rintro (hmem | hmem)
    · exact hnew k hmem hk
    · exact hupd hmem

/-- An entry that the old map does not have is a new one. -/
theorem Written.mem_new (h : Written m (new ++ upd.map key) seen m')
    (hupd : ∀ op ∈ upd, key op ∈ m) (hk : k ∉ m) (hk' : k ∈ m') : k ∈ new := by
  by_contra hnew
  have hframe : k ∉ new ++ upd.map key := by
    rw [List.mem_append]
    rintro (hmem | hmem)
    · exact hnew hmem
    · obtain ⟨op, hop, rfl⟩ := List.mem_map.mp hmem
      exact hk (hupd op hop)
  obtain ⟨v, hv⟩ := Finmap.mem_iff.mp hk'
  rw [h.frame k hframe] at hv
  exact hk (Finmap.mem_of_lookup_eq_some hv)

end Entries

theorem lookup_replaceFrom_of_notMem {cand m : KeyedMap K V} {keys : List K} {k : K}
    (h : k ∉ keys) : (replaceFrom cand m keys).1.lookup k = m.lookup k := by
  induction keys using List.reverseRecOn with
  | nil => rfl
  | append_singleton ks a ih =>
      simp only [List.mem_append, List.mem_singleton, not_or] at h
      rw [replaceFrom_append]
      split
      · rw [Finmap.lookup_insert_of_ne _ h.2, ih h.1]
      · exact ih h.1

/-- A key stays present while others are copied. -/
theorem mem_insertFrom {cand m : KeyedMap K V} {k : K} (hm : k ∈ m) (keys : List K) :
    k ∈ (insertFrom cand m keys).1 := by
  induction keys using List.reverseRecOn with
  | nil => exact hm
  | append_singleton ks a ih =>
      rw [insertFrom_append]
      split
      · exact Finmap.mem_insert.mpr (Or.inr ih)
      · exact ih

/-- A key stays present while others are replaced. -/
theorem mem_replaceFrom (cand : KeyedMap K V) {m : KeyedMap K V} {k : K} (hm : k ∈ m) (keys : List K) :
    k ∈ (replaceFrom cand m keys).1 := by
  induction keys using List.reverseRecOn with
  | nil => exact hm
  | append_singleton ks a ih =>
      rw [replaceFrom_append]
      split
      · exact Finmap.mem_insert.mpr (Or.inr ih)
      · exact ih

theorem lookup_replaceFrom_of_mem {cand m : KeyedMap K V} {keys : List K} {k : K} (h : k ∈ keys)
    (hcand : k ∈ cand) (hm : k ∈ m) : (replaceFrom cand m keys).1.lookup k = cand.lookup k := by
  obtain ⟨v, hv⟩ := Finmap.mem_iff.mp hcand
  induction keys using List.reverseRecOn with
  | nil => cases h
  | append_singleton ks a ih =>
      rw [replaceFrom_append]
      by_cases hka : k = a
      · subst hka
        obtain ⟨old, hold⟩ := Finmap.mem_iff.mp (mem_replaceFrom cand hm ks)
        simp only [hold, hv, Finmap.lookup_insert]
      · have hks := ih (by simpa [hka] using h)
        split
        · rw [Finmap.lookup_insert_of_ne _ hka, hks]
        · exact hks

/-- Copying the new keys and replacing the changed ones turns the map into the candidate. -/
theorem edit_eq {cand m : KeyedMap K V} {new upd : List K} {seen : Finset K}
    (h : Written m (new ++ upd) seen cand) (hupd : ∀ k ∈ upd, k ∈ m) :
    (replaceFrom cand (insertFrom cand m new).1 upd).1 = cand := by
  have hdisj : ∀ k ∈ upd, k ∉ new := fun k hk hk' =>
    (List.nodup_append'.mp h.nodup).2.2 hk' hk
  apply Finmap.ext_lookup
  intro k
  by_cases hk : k ∈ upd
  · apply lookup_replaceFrom_of_mem hk (h.present k (List.mem_append_right _ hk))
    obtain ⟨v, hv⟩ := Finmap.mem_iff.mp (hupd k hk)
    rw [Finmap.mem_iff]
    exact ⟨v, by rw [lookup_insertFrom_of_notMem (hdisj k hk), hv]⟩
  rw [lookup_replaceFrom_of_notMem hk]
  by_cases hnew : k ∈ new
  · exact lookup_insertFrom_of_mem hnew (h.present k (List.mem_append_left _ hnew))
  · rw [lookup_insertFrom_of_notMem hnew]
    exact (h.frame k (by simp [hnew, hk])).symm

/-! ## Changing entries

A change reads an entry and writes it back. Whether the reading is from the map that is being changed, or
from a copy made before, does not matter as long as no key is changed twice. -/

/-- Write the entry that `src` has for a key, changed by `f`; nothing when there is none. -/
def changeFrom (src m : KeyedMap K V) (k : K) (f : V → V) : KeyedMap K V :=
  match src.lookup k with
  | some v => m.insert k (f v)
  | none => m

theorem lookup_changeFrom_of_ne {src m : KeyedMap K V} {k k' : K} {f : V → V} (h : k' ≠ k) :
    (changeFrom src m k f).lookup k' = m.lookup k' := by
  unfold changeFrom
  split
  · exact Finmap.lookup_insert_of_ne _ h
  · rfl

/-- When no key is changed twice, it makes no difference whether each change reads the map as it
stands or the one that all changes start from. -/
theorem foldl_changeFrom_self {α : Type} {key : α → K} {f : α → V → V} {src m : KeyedMap K V}
    {ops : List α} (hnd : (ops.map key).Nodup)
    (hsame : ∀ op ∈ ops, m.lookup (key op) = src.lookup (key op)) :
    ops.foldl (fun m op => changeFrom m m (key op) (f op)) m =
      ops.foldl (fun m op => changeFrom src m (key op) (f op)) m := by
  induction ops generalizing m with
  | nil => rfl
  | cons op ops ih =>
      rw [List.map_cons, List.nodup_cons] at hnd
      obtain ⟨hop, hops⟩ := List.forall_mem_cons.mp hsame
      have hfirst : changeFrom m m (key op) (f op) = changeFrom src m (key op) (f op) := by
        unfold changeFrom
        rw [hop]
      rw [List.foldl_cons, List.foldl_cons, hfirst]
      -- the first change is not seen by the others, whose keys are different
      apply ih hnd.2
      intro op' hop'
      rw [lookup_changeFrom_of_ne]
      · exact hops op' hop'
      · intro heq
        exact hnd.1 (List.mem_map.mpr ⟨op', hop', heq⟩)

/-! ## Maps that grow

A map whose entries stay, with part of each value fixed, and change otherwise. Erasing the entries that
were added gives back the map it grew from only if no other entry has changed. -/

section Grown

variable {α : Type} {fixed : V → α} {m₀ m₁ m₂ : KeyedMap K V} {added added' : List K}

/-- `m₁` has the entries of `m₀`, possibly changed, and those of the keys added. -/
structure Grown (fixed : V → α) (m₀ m₁ : KeyedMap K V) (added : List K) : Prop where
  absent : ∀ k ∈ added, k ∉ m₀
  kept : ∀ k v, m₀.lookup k = some v → ∃ v', m₁.lookup k = some v' ∧ fixed v' = fixed v
  only : ∀ k ∈ m₁, k ∈ m₀ ∨ k ∈ added

theorem Grown.refl (fixed : V → α) (m : KeyedMap K V) : Grown fixed m m [] where
  absent := fun _ hk => nomatch hk
  kept := fun _ v hv => ⟨v, hv, rfl⟩
  only := fun _ hk => .inl hk

theorem Grown.mem (h : Grown fixed m₀ m₁ added) {k : K} (hk : k ∈ m₀) : k ∈ m₁ := by
  obtain ⟨v, hv⟩ := Finmap.mem_iff.mp hk
  obtain ⟨v', hv', -⟩ := h.kept k v hv
  exact Finmap.mem_of_lookup_eq_some hv'

theorem Grown.trans (h : Grown fixed m₀ m₁ added) (h' : Grown fixed m₁ m₂ added') :
    Grown fixed m₀ m₂ (added' ++ added) := by
  refine ⟨?_, ?_, ?_⟩
  · intro k hk
    rcases List.mem_append.mp hk with hk | hk
    · exact mt h.mem (h'.absent k hk)
    · exact h.absent k hk
  · intro k v hv
    obtain ⟨v', hv', hfix⟩ := h.kept k v hv
    obtain ⟨v'', hv'', hfix'⟩ := h'.kept k v' hv'
    exact ⟨v'', hv'', hfix'.trans hfix⟩
  · intro k hk
    rcases h'.only k hk with hk | hk
    · rcases h.only k hk with hk | hk
      · exact .inl hk
      · exact .inr (List.mem_append_right _ hk)
    · exact .inr (List.mem_append_left _ hk)

theorem Grown.eraseAll_eq_iff (h : Grown fixed m₀ m₁ added) :
    m₁.eraseAll added = m₀ ↔ ∀ k v, m₀.lookup k = some v → m₁.lookup k = some v := by
  constructor
  · intro heq k v hv
    have hk : k ∉ added := fun hk => h.absent k hk (Finmap.mem_of_lookup_eq_some hv)
    rw [← lookup_eraseAll_of_notMem hk, heq, hv]
  · intro hsame
    apply Finmap.ext_lookup
    intro k
    by_cases hk : k ∈ added
    · rw [lookup_eraseAll_of_mem hk, Finmap.lookup_eq_none.mpr (h.absent k hk)]
    · rw [lookup_eraseAll_of_notMem hk]
      cases hv : m₀.lookup k with
      | some v => exact hsame k v hv
      | none =>
          rw [Finmap.lookup_eq_none] at hv ⊢
          exact fun hmem => (h.only k hmem).elim hv hk

/-- Whether an entry has changed can be seen from the part of its value that is not fixed. -/
theorem Grown.unchanged_iff {β : Type} {view : V → β} (h : Grown fixed m₀ m₁ added)
    (hview : ∀ v v', fixed v = fixed v' → view v = view v' → v = v') :
    (∀ k v, m₀.lookup k = some v → m₁.lookup k = some v) ↔
      ∀ k w, (m₀.lookup k).map view = some w → (m₁.lookup k).map view = some w := by
  constructor
  · intro hsame k w hw
    obtain ⟨v, hv, rfl⟩ := Option.map_eq_some_iff.mp hw
    rw [hsame k v hv, Option.map_some]
  · intro hsame k v hv
    obtain ⟨v', hv', hfix⟩ := h.kept k v hv
    have hw := hsame k (view v) (by rw [hv, Option.map_some])
    rw [hv', Option.map_some, Option.some.injEq] at hw
    rw [hv', hview v' v hfix hw]

end Grown

end KeyedMap
