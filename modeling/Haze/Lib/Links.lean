import Haze.Lib.KeyedMap

/-!
# Nodes in a store, linked to their parents

A store maps keys to nodes, and each node names its parent by key. `Linked` says that a list of nodes,
newest first, is the path from a key down to height zero. A path can also end at the *root* key, which
stands for "nothing yet": from height one, without a node of height zero.

When the nodes that may be stored have distinct keys, none of them the root (`Distinct`), storing more
of them never disturbs a path, and the key at the top determines the whole path.
-/

/-- How nodes refer to each other. -/
structure Links (K N : Type) where
  key : N → K
  parent : N → K
  height : N → ℕ
  root : K

namespace Links

variable {K N : Type} [DecidableEq K] {L : Links K N} {D : N → Prop}

/-- The nodes of `D` have distinct keys, and none has the root key. -/
structure Distinct (L : Links K N) (D : N → Prop) : Prop where
  inj : ∀ b b', D b → D b' → L.key b = L.key b' → b = b'
  proper : ∀ b, D b → L.key b ≠ L.root

/-- Everything in the store is a node of `D`, under its own key. -/
def Keyed (L : Links K N) (D : N → Prop) (store : KeyedMap K N) : Prop :=
  ∀ k b, store.lookup k = some b → L.key b = k ∧ D b

/-- The path from `k`, at height `n`, is `chain`. -/
def Linked (L : Links K N) (store : KeyedMap K N) : K → ℕ → List N → Prop
  | k, n, [] => k = L.root ∧ n = 0
  | k, n, b :: rest =>
      store.lookup k = some b ∧ L.height b = n ∧
        if n = 0 then rest = [] else L.Linked store (L.parent b) (n - 1) rest

omit [DecidableEq K] in
theorem Distinct.mono {D' : N → Prop} (h : Distinct L D) (hsub : ∀ b, D' b → D b) :
    Distinct L D' :=
  ⟨fun b b' hb hb' => h.inj b b' (hsub b hb) (hsub b' hb'), fun b hb => h.proper b (hsub b hb)⟩

theorem Keyed.mono {D' : N → Prop} {store : KeyedMap K N} (h : Keyed L D store)
    (hsub : ∀ b, D b → D' b) : Keyed L D' store :=
  fun k b hk => ⟨(h k b hk).1, hsub b (h k b hk).2⟩

/-! ## The store

Nodes are stored under their own key. A key that stands for no node is the root, below which there is
nothing. -/

theorem Keyed.empty : Keyed L D ∅ := by
  intro k b h
  simp at h

theorem Keyed.insert {store : KeyedMap K N} (h : Keyed L D store) {b : N} (hb : D b) :
    Keyed L D (store.insert (L.key b) b) := by
  intro k b' hk
  by_cases hkb : k = L.key b
  · subst hkb
    rw [Finmap.lookup_insert] at hk
    cases hk
    exact ⟨rfl, hb⟩
  · rw [Finmap.lookup_insert_of_ne _ hkb] at hk
    exact h k b' hk

/-- Nothing is stored under the root key. -/
theorem Keyed.lookup_root {store : KeyedMap K N} (h : Keyed L D store) (hD : Distinct L D) :
    store.lookup L.root = none := by
  cases hr : store.lookup L.root with
  | none => rfl
  | some b =>
      obtain ⟨hkey, hb⟩ := h _ _ hr
      exact absurd hkey (hD.proper b hb)

/-- Storing a node of `D` keeps every entry. -/
theorem Keyed.lookup_insert {store : KeyedMap K N} (h : Keyed L D store) (hD : Distinct L D) {b : N}
    (hb : D b) {k : K} {b' : N} (hk : store.lookup k = some b') :
    (store.insert (L.key b) b).lookup k = some b' := by
  by_cases hkb : k = L.key b
  · obtain ⟨hkey, hb'⟩ := h k b' hk
    have heq : b' = b := hD.inj b' b hb' hb (hkey.trans hkb)
    rw [hkb, Finmap.lookup_insert, heq]
  · rw [Finmap.lookup_insert_of_ne _ hkb, hk]

/-! ## Paths

A path leads from a key down to the root, one height at a time. -/

theorem Linked.mono {store store' : KeyedMap K N}
    (hsub : ∀ k b, store.lookup k = some b → store'.lookup k = some b) {k : K} {n : ℕ}
    {chain : List N} (h : L.Linked store k n chain) : L.Linked store' k n chain := by
  induction chain generalizing k n with
  | nil => exact h
  | cons b rest ih =>
      obtain ⟨hk, hheight, hrest⟩ := h
      refine ⟨hsub _ _ hk, hheight, ?_⟩
      split at hrest
      next h0 => rw [if_pos h0]; exact hrest
      next h0 => rw [if_neg h0]; exact ih hrest

/-- No path starts at the root key. -/
theorem Linked.eq_nil {store : KeyedMap K N} {n : ℕ} {chain : List N}
    (h : L.Linked store L.root n chain) (hroot : store.lookup L.root = none) : chain = [] := by
  cases chain with
  | nil => rfl
  | cons b rest =>
      rw [h.1] at hroot
      cases hroot

/-- **The key at the top determines the path**, across two stores of nodes of `D`. -/
theorem Linked.unique {store store' : KeyedMap K N} (hD : Distinct L D) (hs : Keyed L D store)
    (hs' : Keyed L D store') {k : K} {n n' : ℕ} {chain chain' : List N}
    (h : L.Linked store k n chain) (h' : L.Linked store' k n' chain') : chain = chain' := by
  induction chain generalizing k n n' chain' with
  | nil =>
      obtain ⟨rfl, -⟩ := h
      -- below the root key there is no node, on either side
      exact (h'.eq_nil (hs'.lookup_root hD)).symm
  | cons b rest ih =>
      cases chain' with
      | nil =>
          obtain ⟨rfl, -⟩ := h'
          exact h.eq_nil (hs.lookup_root hD)
      | cons b' rest' =>
          obtain ⟨hk, hheight, hrest⟩ := h
          obtain ⟨hk', hheight', hrest'⟩ := h'
          obtain ⟨hkey, hb⟩ := hs k b hk
          obtain ⟨hkey', hb'⟩ := hs' k b' hk'
          -- one key, one node; so the rest hangs below the same key again
          obtain rfl : b = b' := hD.inj b b' hb hb' (hkey.trans hkey'.symm)
          obtain rfl : n = n' := hheight.symm.trans hheight'
          congr 1
          split at hrest
          next h0 =>
            rw [if_pos h0] at hrest'
            rw [hrest, hrest']
          next h0 =>
            rw [if_neg h0] at hrest'
            exact ih hrest hrest'

/-! ## What a path visits

Heights fall along a path. That is why no node is on it twice, and what is stored above it does not matter.
-/

section Visits

variable {store : KeyedMap K N} {k : K} {n : ℕ} {chain : List N}

theorem Linked.height_le (h : L.Linked store k n chain) : ∀ b ∈ chain, L.height b ≤ n := by
  induction chain generalizing k n with
  | nil => simp
  | cons b rest ih =>
      obtain ⟨-, hheight, hrest⟩ := h
      rw [List.forall_mem_cons]
      refine ⟨hheight.le, ?_⟩
      split at hrest
      next => simp [hrest]
      next => exact fun b' hb' => (ih hrest b' hb').trans (Nat.sub_le n 1)

/-- Everything on a path is in the store, under its own key. -/
theorem Linked.lookup_eq (hs : Keyed L D store) (h : L.Linked store k n chain) :
    ∀ b ∈ chain, store.lookup (L.key b) = some b := by
  induction chain generalizing k n with
  | nil => simp
  | cons b rest ih =>
      obtain ⟨hk, -, hrest⟩ := h
      rw [List.forall_mem_cons]
      refine ⟨by rw [(hs k b hk).1, hk], ?_⟩
      split at hrest
      next => simp [hrest]
      next => exact ih hrest

theorem Linked.of_keyed (hs : Keyed L D store) (h : L.Linked store k n chain) : ∀ b ∈ chain, D b :=
  fun b hb => (hs _ b (h.lookup_eq hs b hb)).2

/-- A path visits no key twice: heights go down. -/
theorem Linked.nodup (hs : Keyed L D store) (h : L.Linked store k n chain) :
    (chain.map L.key).Nodup := by
  induction chain generalizing k n with
  | nil => simp
  | cons b rest ih =>
      have hall := h.lookup_eq hs
      obtain ⟨-, hheight, hrest⟩ := h
      split at hrest
      next => simp [hrest]
      next hn =>
        rw [List.map_cons, List.nodup_cons]
        refine ⟨?_, ih hrest⟩
        intro hmem
        obtain ⟨b', hb', hkey⟩ := List.mem_map.mp hmem
        have hb := hall b List.mem_cons_self
        rw [← hkey, hall b' (List.mem_cons_of_mem _ hb')] at hb
        have hle := hrest.height_le b' hb'
        rw [Option.some.inj hb, hheight] at hle
        omega

/-- The part of a path from one of its nodes down. -/
theorem Linked.suffix (hs : Keyed L D store) {top rest : List N} {b : N}
    (h : L.Linked store k n (top ++ b :: rest)) :
    L.Linked store (L.key b) (L.height b) (b :: rest) := by
  induction top generalizing k n with
  | nil =>
      have hk := (hs k b h.1).1
      have hheight := h.2.1
      rw [hk, hheight]
      exact h
  | cons a top ih =>
      obtain ⟨-, -, hrest⟩ := h
      split at hrest
      next => simp at hrest
      next => exact ih hrest

/-- Each node on a path may be replaced by one with the same parent and height. -/
theorem Linked.map (hs : Keyed L D store) {store' : KeyedMap K N} {f : N → N}
    (h : L.Linked store k n chain) (hall : ∀ b ∈ chain, store'.lookup (L.key b) = some (f b))
    (hparent : ∀ b ∈ chain, L.parent (f b) = L.parent b)
    (hheight : ∀ b ∈ chain, L.height (f b) = L.height b) : L.Linked store' k n (chain.map f) := by
  induction chain generalizing k n with
  | nil => exact h
  | cons b rest ih =>
      obtain ⟨hk, hn, hrest⟩ := h
      obtain ⟨hb, hall⟩ := List.forall_mem_cons.mp hall
      obtain ⟨hbparent, hparent⟩ := List.forall_mem_cons.mp hparent
      obtain ⟨hbheight, hheight⟩ := List.forall_mem_cons.mp hheight
      refine ⟨(hs k b hk).1 ▸ hb, hbheight.trans hn, ?_⟩
      split at hrest
      next h0 =>
        rw [if_pos h0, List.map_eq_nil_iff]
        exact hrest
      next h0 =>
        rw [if_neg h0, hbparent]
        exact ih hrest hall hparent hheight

/-- A path is one in every store that holds its nodes. -/
theorem Linked.transfer (hs : Keyed L D store) {store' : KeyedMap K N}
    (h : L.Linked store k n chain) (hall : ∀ b ∈ chain, store'.lookup (L.key b) = some b) :
    L.Linked store' k n chain := by
  have hsame := h.map (f := id) hs hall (fun _ _ => rfl) (fun _ _ => rfl)
  rwa [List.map_id] at hsame

/-- Nodes may be exchanged for others with the same parent and height. -/
theorem Linked.relinked {store' : KeyedMap K N} (h : L.Linked store k n chain)
    (hsame : ∀ i b, store.lookup i = some b →
      ∃ b', store'.lookup i = some b' ∧ L.parent b' = L.parent b ∧ L.height b' = L.height b) :
    ∃ chain', L.Linked store' k n chain' := by
  induction chain generalizing k n with
  | nil => exact ⟨[], h⟩
  | cons b rest ih =>
      obtain ⟨hk, hheight, hrest⟩ := h
      obtain ⟨b', hk', hparent, hheight'⟩ := hsame k b hk
      by_cases h0 : n = 0
      · refine ⟨[b'], hk', hheight'.trans hheight, ?_⟩
        rw [if_pos h0]
      · rw [if_neg h0] at hrest
        obtain ⟨rest', hrest'⟩ := ih hrest
        refine ⟨b' :: rest', hk', hheight'.trans hheight, ?_⟩
        rw [if_neg h0, hparent]
        exact hrest'

/-- Above another node nothing is of height zero. -/
theorem Linked.pos_of_above {top rest : List N} {b : N} (h : L.Linked store k n (top ++ b :: rest)) :
    ∀ a ∈ top, L.height a ≠ 0 := by
  induction top generalizing k n with
  | nil => simp
  | cons a top ih =>
      obtain ⟨-, hheight, hrest⟩ := h
      split at hrest
      next => simp at hrest
      next hn =>
        rw [List.forall_mem_cons]
        exact ⟨hheight ▸ hn, ih hrest⟩

/-- The path does not get longer than the store is large. -/
theorem Linked.length_le (hs : Keyed L D store) (h : L.Linked store k n chain) :
    chain.length ≤ store.keys.card := by
  have hsub : (chain.map L.key).toFinset ⊆ store.keys := by
    intro i hi
    obtain ⟨b, hb, rfl⟩ := List.mem_map.mp (List.mem_toFinset.mp hi)
    exact Finmap.mem_keys.mpr (Finmap.mem_of_lookup_eq_some (h.lookup_eq hs b hb))
  have hcard := Finset.card_le_card hsub
  rw [List.toFinset_card_of_nodup (h.nodup hs), List.length_map] at hcard
  exact hcard

/-- Next to each other on a path stand child and parent. -/
theorem Linked.isChain (hs : Keyed L D store) (h : L.Linked store k n chain) :
    chain.IsChain fun child parent => L.parent child = L.key parent := by
  induction chain generalizing k n with
  | nil => exact List.IsChain.nil
  | cons b rest ih =>
      obtain ⟨-, -, hrest⟩ := h
      split at hrest
      next => simp [hrest]
      next =>
        cases rest with
        | nil => exact List.IsChain.singleton b
        | cons b' rest =>
            rw [List.isChain_cons_cons]
            exact ⟨(hs _ b' hrest.1).1.symm, ih hrest⟩

/-- Heights go down by one at each step. -/
theorem Linked.height_of_drop {j : ℕ} {rest : List N} {b : N} (h : L.Linked store k n chain)
    (hdrop : chain.drop j = b :: rest) : L.height b + j = n := by
  induction j generalizing k n chain with
  | zero =>
      rw [List.drop_zero] at hdrop
      subst hdrop
      exact h.2.1
  | succ j ih =>
      cases chain with
      | nil => cases hdrop
      | cons a chain =>
          obtain ⟨-, -, hrest⟩ := h
          split at hrest
          next =>
            subst hrest
            simp at hdrop
          next hn =>
            have := ih hrest hdrop
            omega

/-- A path has at most one node for each height. -/
theorem Linked.length_le_height (h : L.Linked store k n chain) : chain.length ≤ n + 1 := by
  induction chain generalizing k n with
  | nil => exact Nat.zero_le _
  | cons b rest ih =>
      obtain ⟨-, -, hrest⟩ := h
      split at hrest
      next => simp [hrest]
      next hn =>
        have := ih hrest
        rw [List.length_cons]
        omega

/-- A path down to height zero is as long as its height says. -/
theorem Linked.length_eq {g : N} (h : L.Linked store k n chain) (hbottom : chain.getLast? = some g)
    (hg : L.height g = 0) : chain.length = n + 1 := by
  obtain ⟨init, rfl⟩ := List.getLast?_eq_some_iff.mp hbottom
  have hdrop : (init ++ [g]).drop init.length = [g] := List.drop_left
  have hheight := h.height_of_drop hdrop
  rw [List.length_append, List.length_singleton]
  omega

/-- And has one node for each height, highest first. -/
theorem Linked.map_height {g : N} (h : L.Linked store k n chain) (hbottom : chain.getLast? = some g)
    (hg : L.height g = 0) : chain.map L.height = (List.range (n + 1)).reverse := by
  induction chain generalizing k n with
  | nil => cases hbottom
  | cons b rest ih =>
      obtain ⟨-, hheight, hrest⟩ := h
      rw [List.map_cons, List.range_succ, List.reverse_append, List.reverse_singleton,
        List.singleton_append, hheight]
      congr 1
      split at hrest
      next h0 => rw [hrest, h0, List.range_zero, List.reverse_nil, List.map_nil]
      next h0 =>
        obtain ⟨m, rfl⟩ := Nat.exists_eq_succ_of_ne_zero h0
        cases rest with
        | nil =>
            -- the node at the bottom would be `b`, which is not at height zero
            obtain rfl : b = g := Option.some.inj hbottom
            exact absurd (hheight.symm.trans hg) h0
        | cons b' rest => exact ih hrest hbottom

end Visits

end Links
