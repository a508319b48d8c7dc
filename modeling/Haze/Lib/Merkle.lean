import Mathlib.Data.List.Basic
import Mathlib.Data.Nat.Bitwise

/-!
# Binary hash trees with duplicate-last padding

A tree over a list of digests: a level is paired up from the left, an odd digest at its end with
itself, and the digests of the pairs are the level above. The pair hash is an arbitrary function
`hash : D → D → D`.

`Merkle.proof` collects siblings on the way up from an index and `Merkle.climb` hashes them back in.
Climbing with the collected siblings ends at the root, whatever `hash` is. A climb that ends anywhere in
the tree has started in it, if `hash` does not send two of the pairs at hand to one digest; neither
length nor index of the climb matter for that, and neither does the padding.
-/

namespace Merkle

variable {D : Type}

/-- The pairs of a level. -/
def pairs : List D → List (D × D)
  | a :: b :: rest => (a, b) :: pairs rest
  | [a] => [(a, a)]
  | [] => []

/-- The level above. -/
def up (hash : D → D → D) (level : List D) : List D :=
  (pairs level).map fun p => hash p.1 p.2

theorem length_pairs (level : List D) : (pairs level).length = (level.length + 1) / 2 := by
  fun_induction pairs level with
  | case1 a b rest ih => grind
  | case2 a => simp
  | case3 => simp

@[simp] theorem length_up (hash : D → D → D) (level : List D) :
    (up hash level).length = (level.length + 1) / 2 := by
  rw [up, List.length_map, length_pairs]

/-- `empty` is the root of the tree without leaves. -/
def root (hash : D → D → D) (empty : D) : List D → D
  | [] => empty
  | [a] => a
  | a :: b :: rest => root hash empty (up hash (a :: b :: rest))
termination_by level => level.length
decreasing_by grind [length_up]

/-- The sibling of `index` in its level: the other half of the pair, or the digest itself where the
padding is. There is none for an index beyond the level. -/
def sibling (level : List D) (index : ℕ) : Option D :=
  if index ^^^ 1 < level.length then level[index ^^^ 1]? else level[index]?

/-- The siblings from `index` up to the root. -/
def proof (hash : D → D → D) : List D → ℕ → Option (List D)
  | [], _ => some []
  | [_], _ => some []
  | a :: b :: rest, index => do
      let s ← sibling (a :: b :: rest) index
      let above ← proof hash (up hash (a :: b :: rest)) (index / 2)
      return s :: above
termination_by level => level.length
decreasing_by grind [length_up]

/-- One step up: the index says on which side the digest is. -/
def combine (hash : D → D → D) (index : ℕ) (digest s : D) : D :=
  if index % 2 = 0 then hash digest s else hash s digest

/-- Where the siblings lead from `digest`. -/
def climb (hash : D → D → D) (digest : D) : List D → ℕ → D
  | [], _ => digest
  | s :: above, index => climb hash (combine hash index digest s) above (index / 2)

/-! ## Completeness

A proof that was built leads from the leaf to the root: at each level the sibling is the other half of the
pair. -/

/-- Index `2 * k` and index `2 * k + 1` of a level are pair `k`, the second one the first one again at
the end of an odd level. -/
theorem getElem?_pairs (level : List D) (k : ℕ) :
    (pairs level)[k]? = level[2 * k]?.map fun a => (a, level[2 * k + 1]?.getD a) := by
  fun_induction pairs level generalizing k with
  | case1 a b rest ih =>
      cases k with
      | zero => rfl
      | succ k => exact ih k
  | case2 a => cases k <;> grind
  | case3 => rfl

/-- A digest and its sibling hash to the digest above. -/
theorem getElem?_up_half (hash : D → D → D) {level : List D} {index : ℕ} {digest : D}
    (h : level[index]? = some digest) :
    ∃ s, sibling level index = some s ∧
      (up hash level)[index / 2]? = some (combine hash index digest s) := by
  have hlt : index < level.length := (List.getElem?_eq_some_iff.mp h).1
  rcases Nat.mod_two_eq_zero_or_one index with heven | hodd
  · have htwo : 2 * (index / 2) = index := by omega
    refine ⟨level[index + 1]?.getD digest, ?_, ?_⟩
    · rw [sibling, Nat.xor_one_of_even (Nat.even_iff.mpr heven)]
      grind
    · rw [up, List.getElem?_map, getElem?_pairs, htwo, h]
      simp [combine, heven]
  · have htwo : 2 * (index / 2) = index - 1 := by omega
    have hback : index - 1 + 1 = index := by omega
    have hprev : index - 1 < level.length := by omega
    refine ⟨level[index - 1], ?_, ?_⟩
    · rw [sibling, Nat.xor_one_of_odd (Nat.odd_iff.mpr hodd), if_pos hprev, List.getElem?_eq_getElem hprev]
    · rw [up, List.getElem?_map, getElem?_pairs, htwo, List.getElem?_eq_getElem hprev, hback, h]
      simp [combine, hodd]

/-- The collected siblings lead to the root. -/
theorem climb_proof (hash : D → D → D) (empty : D) {level : List D} {index : ℕ} {digest : D}
    (h : level[index]? = some digest) :
    ∃ siblings, proof hash level index = some siblings ∧
      climb hash digest siblings index = root hash empty level := by
  fun_induction root hash empty level generalizing index digest with
  | case1 => cases h
  | case2 a =>
      obtain ⟨rfl, rfl⟩ : index = 0 ∧ a = digest := by grind
      exact ⟨[], by simp [proof], rfl⟩
  | case3 a b rest ih =>
      obtain ⟨s, hs, habove⟩ := getElem?_up_half hash h
      obtain ⟨siblings, hproof, hclimb⟩ := ih habove
      refine ⟨s :: siblings, ?_, hclimb⟩
      rw [proof, hs, hproof]
      rfl

/-- A tree of at most `2 ^ k` leaves is at most `k` high. -/
theorem length_proof_le {hash : D → D → D} {level : List D} {index k : ℕ} {siblings : List D}
    (h : proof hash level index = some siblings) (hlen : level.length ≤ 2 ^ k) : siblings.length ≤ k := by
  fun_induction proof hash level index generalizing k siblings with
  | case1 index =>
      cases h
      exact Nat.zero_le k
  | case2 a index =>
      cases h
      exact Nat.zero_le k
  -- one level up there are half as many, rounded up
  | case3 a b rest index ih =>
      obtain ⟨s, -, h⟩ := Option.bind_eq_some_iff.mp h
      obtain ⟨above, habove, h⟩ := Option.bind_eq_some_iff.mp h
      cases h
      cases k with
      | zero => simp at hlen
      | succ k =>
          have hhalf : (up hash (a :: b :: rest)).length ≤ 2 ^ k := by
            rw [length_up]
            rw [Nat.pow_succ] at hlen
            omega
          exact Nat.succ_le_succ (ih habove hhalf)

/-! ## Soundness

A proof that leads to the root may be for a leaf that is not there only if two different pairs have one
digest. -/

/-- All pairs that are hashed for the root. -/
def hashed (hash : D → D → D) : List D → List (D × D)
  | [] => []
  | [_] => []
  | a :: b :: rest => pairs (a :: b :: rest) ++ hashed hash (up hash (a :: b :: rest))
termination_by level => level.length
decreasing_by grind [length_up]

/-- All pairs that are hashed on a climb. -/
def climbed (hash : D → D → D) (digest : D) : List D → ℕ → List (D × D)
  | [], _ => []
  | s :: above, index =>
      (if index % 2 = 0 then (digest, s) else (s, digest)) ::
        climbed hash (combine hash index digest s) above (index / 2)

theorem climb_eq (hash : D → D → D) (digest : D) (siblings : List D) (index : ℕ) :
    climb hash digest siblings index = digest ∨
      ∃ p ∈ climbed hash digest siblings index,
        climb hash digest siblings index = hash p.1 p.2 := by
  induction siblings generalizing digest index with
  | nil => exact .inl rfl
  | cons s above ih =>
      right
      rcases ih (combine hash index digest s) (index / 2) with h | ⟨p, hp, h⟩
      · refine ⟨_, List.mem_cons_self, ?_⟩
        rw [climb, h]
        grind [combine]
      · exact ⟨p, List.mem_cons_of_mem _ hp, h⟩

/-- The digests of a tree: its leaves and what its pairs hash to. -/
def digests (hash : D → D → D) (leaves : List D) : List D :=
  leaves ++ (hashed hash leaves).map fun p => hash p.1 p.2

theorem mem_of_mem_pairs {level : List D} {p : D × D} (h : p ∈ pairs level) :
    p.1 ∈ level ∧ p.2 ∈ level := by
  fun_induction pairs level with
  | case1 a b rest ih => grind
  | case2 a => grind
  | case3 => cases h

theorem digests_up_subset (hash : D → D → D) (a b : D) (rest : List D) :
    digests hash (up hash (a :: b :: rest)) ⊆ digests hash (a :: b :: rest) := by
  intro d hd
  rw [digests, hashed, List.map_append]
  exact List.mem_append_right _ hd

/-- Both halves of a pair are in the tree. -/
theorem mem_digests_of_mem_hashed {hash : D → D → D} {leaves : List D} {p : D × D}
    (h : p ∈ hashed hash leaves) : p.1 ∈ digests hash leaves ∧ p.2 ∈ digests hash leaves := by
  fun_induction hashed hash leaves with
  | case1 => cases h
  | case2 a => cases h
  | case3 a b rest ih =>
      rcases List.mem_append.mp h with h | h
      · have hmem := mem_of_mem_pairs h
        exact ⟨List.mem_append_left _ hmem.1, List.mem_append_left _ hmem.2⟩
      · have hsub := digests_up_subset hash a b rest
        exact ⟨hsub (ih h).1, hsub (ih h).2⟩

theorem root_mem_digests (hash : D → D → D) (empty : D) {leaves : List D} (h : leaves ≠ []) :
    root hash empty leaves ∈ digests hash leaves := by
  fun_induction root hash empty leaves with
  | case1 => exact absurd rfl h
  | case2 a => exact List.mem_append_left _ List.mem_cons_self
  | case3 a b rest ih =>
      apply digests_up_subset
      apply ih
      apply List.ne_nil_of_length_pos
      grind [length_up]

/-- What a climb and a tree must not do to one another: hash two different pairs to one digest, or hash
a pair to a leaf. -/
structure Apart (hash : D → D → D) (leaves : List D) (path : List (D × D)) : Prop where
  pair : ∀ p ∈ path, ∀ q ∈ hashed hash leaves, hash p.1 p.2 = hash q.1 q.2 → p = q
  leaf : ∀ p ∈ path, hash p.1 p.2 ∉ leaves

theorem Apart.tail {hash : D → D → D} {leaves : List D} {p : D × D} {path : List (D × D)}
    (h : Apart hash leaves (p :: path)) : Apart hash leaves path :=
  ⟨fun q hq => h.pair q (List.mem_cons_of_mem _ hq), fun q hq => h.leaf q (List.mem_cons_of_mem _ hq)⟩

/-- A climb that ends in the tree has started in it. -/
theorem mem_digests_of_climb {hash : D → D → D} {leaves : List D} {digest : D} {siblings : List D}
    {index : ℕ} (hapart : Apart hash leaves (climbed hash digest siblings index))
    (hend : climb hash digest siblings index ∈ digests hash leaves) :
    digest ∈ digests hash leaves := by
  induction siblings generalizing digest index with
  | nil => exact hend
  | cons s above ih =>
      have hnext : combine hash index digest s ∈ digests hash leaves := ih hapart.tail hend
      -- the pair climbed over is a pair of the tree
      rcases List.mem_append.mp hnext with hleaf | hpair
      · have := hapart.leaf _ List.mem_cons_self
        grind [combine]
      · obtain ⟨q, hq, heq⟩ := List.mem_map.mp hpair
        have hmem := mem_digests_of_mem_hashed hq
        have := hapart.pair _ List.mem_cons_self q hq
        grind [combine]

end Merkle
