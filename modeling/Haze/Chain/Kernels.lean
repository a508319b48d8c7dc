import Haze.Chain.Runs
import Haze.Devnet

/-!
# The kernel record

`kernels` and `kernel_excesses` are meant to list what the active chain carries. Applying a block only
ever adds to them. Rolling one back deletes by *excess*, so it also takes kernels of other blocks that
have the same excess — and nothing forbids two kernels with one excess. The record therefore agrees
with the active chain along every run whose reorganizations roll back no block that shares an excess
with a block that stays.
-/

namespace Haze

namespace ChainState

variable {P : Crypto} {s : ChainState P} {chain : List (Block P)}

/-! ## Rolling kernels back

A rollback removes the kernels whose excess the block has. That may hit kernels of earlier blocks as well,
if an excess comes twice. -/

theorem removeKernels_eq (kernels : List (TxKernel P)) (excesses : List (Commitment P)) :
    removeKernels kernels excesses = kernels.filter fun k => k.excess ∉ excesses := by
  induction excesses generalizing kernels with
  | nil => simp [removeKernels]
  | cons e es ih =>
      show removeKernels (kernels.filter fun k => k.excess ≠ e) es = _
      rw [ih, List.filter_filter]
      congr 1
      funext k
      simp only [List.mem_cons, not_or, Bool.decide_and, Bool.and_comm, ne_eq]

/-- What is left of the record after a list of blocks has been rolled back. -/
theorem kernels_revertBlocks (s : ChainState P) (bs : List (Block P)) :
    (s.revertBlocks bs).kernels = s.kernels.filter fun k => k.excess ∉ bs.flatMap Block.excesses := by
  induction bs generalizing s with
  | nil => simp [revertBlocks]
  | cons b bs ih =>
      show ((s.revertBlock b).1.revertBlocks bs).kernels = _
      rw [ih]
      show (removeKernels s.kernels b.excesses).filter _ = _
      rw [removeKernels_eq, List.filter_filter]
      congr 1
      funext k
      simp only [List.flatMap_cons, List.mem_append, not_or, Bool.decide_and, Bool.and_comm]

theorem mem_kernelExcesses_revertBlocks {bs : List (Block P)} {e : Commitment P} :
    e ∈ (s.revertBlocks bs).kernelExcesses ↔
      e ∈ s.kernelExcesses ∧ e ∉ bs.flatMap Block.excesses := by
  induction bs generalizing s with
  | nil => simp [revertBlocks]
  | cons b bs ih =>
      show e ∈ ((s.revertBlock b).1.revertBlocks bs).kernelExcesses ↔ _
      rw [ih]
      show e ∈ Coins.spend s.kernelExcesses b.excesses ∧ _ ↔ _
      simp only [Coins.mem_spend, List.flatMap_cons, List.mem_append, not_or, and_assoc]

/-! ## The record along a run

The kernels of a state are those of the blocks of its chain, in their order, and the set has their excesses.
-/

/-- The record lists the kernels of the chain, oldest block first. -/
structure Records (s : ChainState P) (chain : List (Block P)) : Prop where
  kernels : s.kernels = chain.reverse.flatMap Block.kernels
  excesses : ∀ e, e ∈ s.kernelExcesses ↔ e ∈ chain.flatMap Block.excesses

theorem Records.commitBlock {b : Block P} (h : Records s chain) (c : Candidate P) :
    Records (s.commitBlock b c).1 (b :: chain) := by
  refine ⟨?_, ?_⟩
  · show s.kernels ++ b.kernels = _
    rw [h.kernels, List.reverse_cons, List.flatMap_append, List.flatMap_singleton]
  · intro e
    show e ∈ Coins.create s.kernelExcesses b.excesses ↔ _
    rw [Coins.mem_create, h.excesses, List.flatMap_cons, List.mem_append]

-- filtering by excess keeps all kernels of the blocks that carry none of the excesses
theorem filter_kernels_eq_self {bs : List (Block P)} {es : List (Commitment P)}
    (h : ∀ e ∈ es, e ∉ bs.flatMap Block.excesses) :
    (bs.reverse.flatMap Block.kernels).filter (fun k => k.excess ∉ es) =
      bs.reverse.flatMap Block.kernels := by
  rw [List.filter_eq_self]
  intro k hk
  rw [decide_eq_true_eq]
  intro hmem
  apply h k.excess hmem
  obtain ⟨b, hb, hkb⟩ := List.mem_flatMap.mp hk
  exact List.mem_flatMap.mpr ⟨b, List.mem_reverse.mp hb, List.mem_map_of_mem hkb⟩

-- and drops all kernels of the blocks that carry them
theorem filter_kernels_eq_nil (bs : List (Block P)) :
    (bs.reverse.flatMap Block.kernels).filter (fun k => k.excess ∉ bs.flatMap Block.excesses) = [] := by
  rw [List.filter_eq_nil_iff]
  intro k hk
  rw [decide_eq_true_eq, not_not]
  obtain ⟨b, hb, hkb⟩ := List.mem_flatMap.mp hk
  exact List.mem_flatMap.mpr ⟨b, List.mem_reverse.mp hb, List.mem_map_of_mem hkb⟩

theorem Records.revertBlocks {gone rest : List (Block P)} (h : Records s (gone ++ rest))
    (hapart : ∀ e ∈ gone.flatMap Block.excesses, e ∉ rest.flatMap Block.excesses) :
    Records (s.revertBlocks gone) rest := by
  refine ⟨?_, ?_⟩
  · rw [kernels_revertBlocks, h.kernels, List.reverse_append, List.flatMap_append,
      List.filter_append, filter_kernels_eq_self hapart, filter_kernels_eq_nil, List.append_nil]
  · intro e
    rw [mem_kernelExcesses_revertBlocks, h.excesses, List.flatMap_append, List.mem_append]
    constructor
    · rintro ⟨he | he, hnot⟩
      · exact absurd he hnot
      · exact he
    · exact fun he => ⟨Or.inr he, fun he' => hapart e he' he⟩

/-- If the delivery reorganizes, no block it rolls back shares a kernel excess with a block that
stays on the chain. -/
def KernelsApart (s : ChainState P) (b : Block P) : Prop :=
  ∀ r ∈ s.reorgOf b, ∀ e ∈ (s.activeChain.take r.1).flatMap Block.excesses,
    e ∉ (s.activeChain.drop r.1).flatMap Block.excesses

instance (s : ChainState P) (b : Block P) : Decidable (KernelsApart s b) :=
  inferInstanceAs (Decidable (∀ r ∈ s.reorgOf b, ∀ e ∈ (s.activeChain.take r.1).flatMap Block.excesses,
    e ∉ (s.activeChain.drop r.1).flatMap Block.excesses))

theorem records_deliver {bs : List (Block P)} (hD : DistinctHashes (· ∈ bs))
    (hC : EachDelivery KernelsApart bs) : Records (deliver bs) (deliver bs).activeChain := by
  obtain ⟨chain, htracks, hrecords⟩ : ∃ chain, Tracks (· ∈ bs) (deliver bs) chain ∧
      Records (deliver bs) chain := by
    apply deliver_induct (Q := fun _ _ => True) hD hC
    · exact ⟨rfl, fun e => by simp [ChainState.new]⟩
    · exact fun _ => deliveryApplies_true
    · exact fun _ _ h => ⟨h.kernels, h.excesses⟩
    · exact fun _ h _ _ _ => h.commitBlock _
    · intro s chain b htracks hapart r hr _ h
      have hsplit := hapart r hr
      rw [htracks.activeChain_eq hD] at hsplit
      rw [← List.take_append_drop r.1 chain] at h
      exact h.revertBlocks hsplit
  rw [htracks.activeChain_eq hD]
  exact hrecords

/-- **The kernel record agrees with the active chain** after every run of deliveries whose
reorganizations keep rolled-back and remaining excesses apart. -/
theorem kernels_agree_with_activeChain {bs : List (Block P)} (hD : DistinctHashes (· ∈ bs))
    (hC : EachDelivery KernelsApart bs) :
    (deliver bs).kernels.Perm ((deliver bs).activeChain.flatMap Block.kernels) ∧
      ∀ e, e ∈ (deliver bs).kernelExcesses ↔
        ∃ b ∈ (deliver bs).activeChain, ∃ k ∈ b.kernels, k.excess = e := by
  have h := records_deliver hD hC
  refine ⟨?_, ?_⟩
  · rw [h.kernels]
    exact (List.reverse_perm _).flatMap_right _
  · intro e
    rw [h.excesses]
    simp only [List.mem_flatMap, Block.excesses, List.mem_map]

end ChainState

namespace Devnet

open ChainState

-- a fork of two blocks on genesis
@[irreducible] def rivalBlock : Block crypto :=
  mineRival (deliver [genesis]) (coinbase 1 13)

@[irreducible] def secondBlock : Block crypto :=
  mine (deliver [genesis, rivalBlock]) (coinbase 2 14)

/-- A block that mints to the blinding factor `r`, and the fork that replaces it. -/
@[irreducible] def forkRun (r : BitVec 256) : List (Block crypto) :=
  [genesis, mine (deliver [genesis]) (coinbase 1 r), rivalBlock, secondBlock]

theorem forkRun_eleven_kernels_agree :
    (deliver (forkRun 11)).kernels.Perm ((deliver (forkRun 11)).activeChain.flatMap Block.kernels) ∧
      ∀ e, e ∈ (deliver (forkRun 11)).kernelExcesses ↔
        ∃ b ∈ (deliver (forkRun 11)).activeChain, ∃ k ∈ b.kernels, k.excess = e := by
  have hrun : (zeroHash :: (forkRun 11).map Block.hash).Nodup ∧
      EachDelivery KernelsApart (forkRun 11) := by
    decide +kernel
  exact kernels_agree_with_activeChain (distinctHashes_of_nodup hrun.1) hrun.2

/-- The replaced block mints to the blinding factor of a genesis output, so its kernel has the excess
of a genesis kernel. Rolling it back forgets both. -/
theorem forkRun_seven_loses_kernel :
    DistinctHashes (· ∈ forkRun 7) ∧
      ¬ (deliver (forkRun 7)).kernels.Perm
        ((deliver (forkRun 7)).activeChain.flatMap Block.kernels) := by
  have hrun : (zeroHash :: (forkRun 7).map Block.hash).Nodup ∧
      ¬ (deliver (forkRun 7)).kernels.Perm
        ((deliver (forkRun 7)).activeChain.flatMap Block.kernels) := by
    decide +kernel
  exact ⟨distinctHashes_of_nodup hrun.1, hrun.2⟩

end Devnet

end Haze
