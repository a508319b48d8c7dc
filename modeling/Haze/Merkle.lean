import Haze.Devnet
import Haze.Lib.Encoding
import Haze.Lib.Merkle

/-!
# Allowlists as Merkle roots (`merkle.rs`)

A mint phase stores one root for its whole allowlist, and a mint shows the path of its owner's leaf. The
two functions a client runs, `merkle_root` and `build_merkle_proof`, each rebuild the tree level by level
with a loop of their own; `verify_merkle_proof`, which the chain runs, sees only the path. Of what the
three walk over, the tree of the library, they are the root, the collected siblings and the climb.

Nothing in the hashed bytes tells a leaf from an inner node. What tells them apart is the length: a leaf
is the digest of 32 bytes, an inner node of 64, and the root of no leaves of 15.
-/

namespace Haze

variable {P : Crypto}

/-- `empty_root`. -/
def emptyRoot (P : Crypto) : Bytes32 :=
  P.sha256 (asBytes "HazeMerkleEmpty")

def merkleRoot (P : Crypto) (leaves : List Bytes32) : Bytes32 :=
  Merkle.root (hashPair P) (emptyRoot P) leaves

/-- `build_merkle_proof`; `none` where `level[index]` is out of bounds. -/
def buildMerkleProof (P : Crypto) (leaves : List Bytes32) (leafIndex : ℕ) : Option (List Bytes32) :=
  Merkle.proof (hashPair P) leaves leafIndex

/-- The check folds the siblings of a climb. -/
theorem verifyMerkleProof_eq (leaf : Bytes32) (proof : List Bytes32) (leafIndex : ℕ)
    (root : Bytes32) :
    verifyMerkleProof P leaf proof leafIndex root =
      decide (Merkle.climb (hashPair P) leaf proof leafIndex = root) := by
  induction proof generalizing leaf leafIndex with
  | nil => rfl
  | cons sibling rest ih =>
      rw [verifyMerkleProof, ih]
      rfl

/-- **Completeness.** The proof built for a leaf is accepted at its index, at every index of every
non-empty list. `P.sha256` is any function, and so is the pair hash. -/
theorem verifyMerkleProof_buildMerkleProof (P : Crypto) (leaves : List Bytes32) (i : ℕ)
    (hi : i < leaves.length) :
    ∃ proof, buildMerkleProof P leaves i = some proof ∧
      verifyMerkleProof P leaves[i] proof i (merkleRoot P leaves) = true := by
  obtain ⟨proof, hproof, hclimb⟩ :=
    Merkle.climb_proof (hashPair P) (emptyRoot P) (List.getElem?_eq_getElem hi)
  refine ⟨proof, hproof, ?_⟩
  rw [verifyMerkleProof_eq]
  exact decide_eq_true hclimb

theorem verifyMerkleProof_padded :
    2 < 3 ∧ ∃ proof,
      buildMerkleProof Devnet.crypto [Devnet.natBytes 1, Devnet.natBytes 2, Devnet.natBytes 3] 2 =
        some proof ∧
      verifyMerkleProof Devnet.crypto (Devnet.natBytes 3) proof 2
        (merkleRoot Devnet.crypto [Devnet.natBytes 1, Devnet.natBytes 2, Devnet.natBytes 3]) =
          true :=
  ⟨by decide, verifyMerkleProof_buildMerkleProof Devnet.crypto
    [Devnet.natBytes 1, Devnet.natBytes 2, Devnet.natBytes 3] 2 (by decide)⟩

/-! ## What an accepted proof shows

An accepted proof shows membership as long as no two of the messages that are hashed on the way have one
digest. Which messages these are is listed here. -/

/-- The bytes an inner node is the digest of. -/
def pairBytes (p : Bytes32 × Bytes32) : List UInt8 :=
  p.1.toList ++ p.2.toList

/-- The strings `merkle_root` hashes. -/
def rootMessages (P : Crypto) (leaves : List Bytes32) : List (List UInt8) :=
  if leaves = [] then [asBytes "HazeMerkleEmpty"]
  else (Merkle.hashed (hashPair P) leaves).map pairBytes

/-- The strings `verify_merkle_proof` hashes. -/
def proofMessages (P : Crypto) (leaf : Bytes32) (proof : List Bytes32) (leafIndex : ℕ) :
    List (List UInt8) :=
  (Merkle.climbed (hashPair P) leaf proof leafIndex).map pairBytes

theorem Commitment.length_toBytes (c : Commitment P) : c.toBytes.length = 32 :=
  (P.compress c.asPoint).2

theorem Commitment.toBytes_injective : Function.Injective (Commitment.toBytes (P := P)) := by
  intro c c' h
  have hcompress : P.compress c.asPoint = P.compress c'.asPoint := List.Vector.eq _ _ h
  have hpoint : some c.asPoint = some c'.asPoint := by
    rw [← P.decompress_compress, ← P.decompress_compress, hcompress]
  exact Commitment.ext (Option.some.inj hpoint)

theorem length_pairBytes (p : Bytes32 × Bytes32) : (pairBytes p).length = 64 := by
  simp [pairBytes]

theorem pairBytes_injective : Function.Injective pairBytes := by
  intro p q h
  obtain ⟨hl, hr⟩ := List.append_inj h (by simp)
  exact Prod.ext (List.Vector.eq _ _ hl) (List.Vector.eq _ _ hr)

/-- An inner node and a leaf are digests of strings of different lengths. -/
theorem pairBytes_ne_toBytes (p : Bytes32 × Bytes32) (c : Commitment P) : pairBytes p ≠ c.toBytes := by
  intro h
  have := congrArg List.length h
  rw [length_pairBytes, c.length_toBytes] at this
  cases this

section

open Encoding

variable {pks : List (Commitment P)} {pk : Commitment P} {proof : List Bytes32} {leafIndex : ℕ}

/-- No proof leads to the root of the empty list. -/
theorem climb_ne_emptyRoot
    (hsha : CollisionFree P.sha256 (pk.toBytes :: asBytes "HazeMerkleEmpty" ::
      proofMessages P (allowlistLeaf pk) proof leafIndex)) :
    Merkle.climb (hashPair P) (allowlistLeaf pk) proof leafIndex ≠ emptyRoot P := by
  have hempty : (asBytes "HazeMerkleEmpty").length = 15 := by decide +kernel
  intro h
  rcases Merkle.climb_eq (hashPair P) (allowlistLeaf pk) proof leafIndex with hend | ⟨p, hp, hend⟩
  · have heq := hsha pk.toBytes (by simp) _ (by simp) (hend.symm.trans h)
    have hlen := congrArg List.length heq
    rw [pk.length_toBytes, hempty] at hlen
    cases hlen
  · have hmem : pairBytes p ∈ proofMessages P (allowlistLeaf pk) proof leafIndex :=
      List.mem_map_of_mem hp
    have heq := hsha (pairBytes p) (by simp [hmem]) _ (by simp) (hend.symm.trans h)
    have hlen := congrArg List.length heq
    rw [length_pairBytes, hempty] at hlen
    cases hlen

/-- Without collisions the path and the tree of an allowlist stay apart. -/
theorem apart_of_collisionFree
    (hsha : CollisionFree P.sha256 (pks.map Commitment.toBytes
      ++ (Merkle.hashed (hashPair P) (pks.map allowlistLeaf)).map pairBytes
      ++ proofMessages P (allowlistLeaf pk) proof leafIndex)) :
    Merkle.Apart (hashPair P) (pks.map allowlistLeaf)
      (Merkle.climbed (hashPair P) (allowlistLeaf pk) proof leafIndex) where
  -- a pair on the path and a pair of the tree
  pair := by
    intro p hp q hq h
    have hp : pairBytes p ∈ proofMessages P (allowlistLeaf pk) proof leafIndex :=
      List.mem_map_of_mem hp
    have hq := List.mem_map_of_mem (f := pairBytes) hq
    apply pairBytes_injective
    exact hsha _ (List.mem_append_right _ hp) _
      (List.mem_append_left _ (List.mem_append_right _ hq)) h
  -- a pair on the path and a leaf, which are messages of different lengths
  leaf := by
    intro p hp hleaf
    have hp : pairBytes p ∈ proofMessages P (allowlistLeaf pk) proof leafIndex :=
      List.mem_map_of_mem hp
    obtain ⟨c, hc, h⟩ := List.mem_map.mp hleaf
    have hc := List.mem_map_of_mem (f := Commitment.toBytes) hc
    apply pairBytes_ne_toBytes p c
    exact hsha _ (List.mem_append_right _ hp) _
      (List.mem_append_left _ (List.mem_append_left _ hc)) h.symm

/-- A leaf of the tree of an allowlist, not an inner node of it, is the leaf of one of its keys. -/
theorem mem_of_allowlistLeaf_mem_digests
    (hsha : CollisionFree P.sha256 (pk.toBytes :: (pks.map Commitment.toBytes
      ++ (Merkle.hashed (hashPair P) (pks.map allowlistLeaf)).map pairBytes)))
    (h : allowlistLeaf pk ∈ Merkle.digests (hashPair P) (pks.map allowlistLeaf)) : pk ∈ pks := by
  rcases List.mem_append.mp h with h | h
  · obtain ⟨c, hc, heq⟩ := List.mem_map.mp h
    have hbytes := List.mem_map_of_mem (f := Commitment.toBytes) hc
    have hsame : c.toBytes = pk.toBytes :=
      hsha _ (List.mem_cons_of_mem _ (List.mem_append_left _ hbytes)) _ List.mem_cons_self heq
    rwa [← Commitment.toBytes_injective hsame]
  · obtain ⟨q, hq, heq⟩ := List.mem_map.mp h
    have hbytes := List.mem_map_of_mem (f := pairBytes) hq
    refine absurd ?_ (pairBytes_ne_toBytes q pk)
    exact hsha _ (List.mem_cons_of_mem _ (List.mem_append_right _ hbytes)) _ List.mem_cons_self heq

/-- **Soundness.** A proof that is accepted for a key under the root of a list of keys, of any length and
at any index, is for a key of the list; under the root of the empty list none is accepted. SHA-256 is
assumed to have no collision among the strings that the leaves, the root and the proof are hashed
from. -/
theorem mem_of_verifyMerkleProof (pks : List (Commitment P)) (pk : Commitment P)
    (proof : List Bytes32) (leafIndex : ℕ)
    (hsha : CollisionFree P.sha256 ((pk :: pks).map Commitment.toBytes
      ++ rootMessages P (pks.map allowlistLeaf)
      ++ proofMessages P (allowlistLeaf pk) proof leafIndex))
    (h : verifyMerkleProof P (allowlistLeaf pk) proof leafIndex
      (merkleRoot P (pks.map allowlistLeaf)) = true) : pk ∈ pks := by
  rw [verifyMerkleProof_eq, decide_eq_true_eq] at h
  -- the root of an empty allowlist is a constant, which no path leads to
  cases pks with
  | nil =>
      rw [merkleRoot, List.map_nil, Merkle.root] at h
      refine absurd h (climb_ne_emptyRoot (hsha.mono ?_))
      intro m hm
      simpa [rootMessages] using hm
  | cons k ks =>
      have hne : (k :: ks).map (allowlistLeaf (P := P)) ≠ [] := List.cons_ne_nil _ _
      rw [rootMessages, if_neg hne] at hsha
      apply mem_of_allowlistLeaf_mem_digests (hsha.mono ?_)
      · apply Merkle.mem_digests_of_climb (apart_of_collisionFree (hsha.mono ?_))
        · rw [h]
          exact Merkle.root_mem_digests _ _ hne
        · intro m hm
          exact List.mem_cons_of_mem _ hm
      · intro m hm
        exact List.mem_append_left _ hm

namespace Devnet

/-- Three keys, the third one padded at the end of its level. -/
def listed : List (Commitment crypto) :=
  [⟨(11 : BitVec 256)⟩, ⟨(12 : BitVec 256)⟩, ⟨(13 : BitVec 256)⟩]

/-- The proof for the third key. -/
def listedProof : List Bytes32 :=
  [allowlistLeaf (P := crypto) ⟨(13 : BitVec 256)⟩,
   hashPair crypto (allowlistLeaf (P := crypto) ⟨(11 : BitVec 256)⟩)
    (allowlistLeaf (P := crypto) ⟨(12 : BitVec 256)⟩)]

theorem listedProof_shows :
    ∃ pk : Commitment crypto, verifyMerkleProof crypto (allowlistLeaf pk) listedProof 2
      (merkleRoot crypto (listed.map allowlistLeaf)) = true ∧ pk ∈ listed := by
  have hroot : merkleRoot crypto (listed.map allowlistLeaf) =
      hashPair crypto (hashPair crypto (allowlistLeaf (P := crypto) ⟨(11 : BitVec 256)⟩)
        (allowlistLeaf (P := crypto) ⟨(12 : BitVec 256)⟩))
        (hashPair crypto (allowlistLeaf (P := crypto) ⟨(13 : BitVec 256)⟩)
          (allowlistLeaf (P := crypto) ⟨(13 : BitVec 256)⟩)) := by
    simp only [merkleRoot, listed, List.map, Merkle.root, Merkle.up, Merkle.pairs]
  have hverify : verifyMerkleProof crypto (allowlistLeaf (P := crypto) ⟨(13 : BitVec 256)⟩)
      listedProof 2 (merkleRoot crypto (listed.map allowlistLeaf)) = true := by
    rw [hroot]
    decide +kernel
  refine ⟨⟨(13 : BitVec 256)⟩, hverify, mem_of_verifyMerkleProof listed _ listedProof 2 ?_ hverify⟩
  rw [rootMessages, if_neg (by decide)]
  simp only [listed, List.map, Merkle.hashed, Merkle.up, Merkle.pairs]
  decide +kernel

end Devnet

end

end Haze
