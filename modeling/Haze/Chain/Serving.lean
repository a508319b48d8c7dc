import Haze.Lib.Ladder
import Haze.Chain.Range
import Haze.Chain.ForkPath

/-!
# What a range request gets

On top of a genesis block the active chain has one block for each height up to the tip, whatever was
reorganized on the way. So the blocks that `get_blocks_from` serves are those of a window of heights,
and its second answer tells whether the chain goes on behind the window.
-/

namespace Haze

namespace ChainState

variable {P : Crypto} {D : Block P → Prop} {s : ChainState P} {g : Block P} {chain : List (Block P)}

/-- One block for each height, from the genesis block up. -/
theorem Grounded.rungs (h : Grounded D g s chain) :
    Ladder.Rungs (fun b => b.height.toNat) chain.reverse (s.currentHeight.toNat + 1) := by
  have hg : (blockLinks P).height g = 0 := congrArg UInt64.toNat h.genesis.height
  have hheights : chain.map (fun b => b.height.toNat) = _ := h.tracks.linked.map_height h.bottom hg
  rw [Ladder.Rungs, List.map_reverse, hheights, List.reverse_reverse]

/-- The loop ends when the chain does. -/
theorem Grounded.collectFrom_fuel (hD : DistinctHashes D) (h : Grounded D g s chain)
    (fromHeight : UInt64) {fuel : ℕ} (hfuel : s.blocks.keys.card < fuel) :
    collectFrom s.blocks fromHeight fuel s.lastBlockHash =
      chain.takeWhile fun b => decide (fromHeight ≤ b.height) :=
  collectFrom_eq (h.tracks.keyed.lookup_root hD) h.tracks.linked
    ((h.tracks.linked.length_le h.tracks.keyed).trans_lt hfuel)

/-- Served is a window of the chain, read upwards. -/
theorem Grounded.getBlocksFrom_eq (hD : DistinctHashes D) (h : Grounded D g s chain)
    (fromHeight : UInt64) (limit : ℕ) :
    s.getBlocksFrom fromHeight limit =
      ((chain.reverse.drop fromHeight.toNat).take limit,
        decide (limit < (chain.reverse.drop fromHeight.toNat).length)) := by
  have hwalk : (chain.takeWhile fun b => decide (fromHeight ≤ b.height)).reverse =
      chain.reverse.drop fromHeight.toNat := by
    rw [← h.rungs.reverse_takeWhile, List.reverse_reverse]
    rfl
  rw [h.tracks.getBlocksFrom_eq hD]
  simp only [hwalk]

/-- Each block of the chain read upwards follows the one before it. -/
theorem Grounded.isChain_reverse (h : Grounded D g s chain) : chain.reverse.IsChain Follows := by
  rw [List.isChain_reverse]
  exact h.tracks.linked.isChain h.tracks.keyed

/-- **A range request gets its range.** After any deliveries on top of a genesis block, the loop of
`get_blocks_from` ends, the blocks it serves are those of the active chain with heights in the range,
one for each of its heights up to the tip, each following the one before, and there are more exactly
when the chain has a block from the first height on that is above all of them. -/
theorem blocks_served {bs : List (Block P)} (hD : DistinctHashes (· ∈ g :: bs)) (hg : IsGenesis g)
    (happlied : ((ChainState.new : ChainState P).applyBlock g).2.isApplied = true)
    (hs : s = deliver (g :: bs)) (fromHeight : UInt64) (limit : ℕ) :
    (∀ fuel, s.blocks.keys.card < fuel →
      s.getBlocksFrom fromHeight limit =
        let collected := (collectFrom s.blocks fromHeight fuel s.lastBlockHash).reverse
        (collected.take limit, decide (collected.length > limit))) ∧
    (s.getBlocksFrom fromHeight limit).1 =
      s.activeChain.reverse.filter (fun b =>
        decide (fromHeight.toNat ≤ b.height.toNat ∧ b.height.toNat < fromHeight.toNat + limit)) ∧
    (s.getBlocksFrom fromHeight limit).1.map (fun b => b.height.toNat) =
      List.range' fromHeight.toNat (min limit (s.currentHeight.toNat + 1 - fromHeight.toNat)) ∧
    (s.getBlocksFrom fromHeight limit).1.IsChain Follows ∧
    ((s.getBlocksFrom fromHeight limit).2 = true ↔
      ∃ b ∈ s.activeChain, fromHeight ≤ b.height ∧
        -- the fuel of the walk does not matter as soon as it exceeds the number of stored blocks
        ∀ b' ∈ (s.getBlocksFrom fromHeight limit).1, b'.height < b.height) := by
  subst hs
  obtain ⟨chain, h⟩ := grounded_deliver hD hg happlied
  have hchain := h.tracks.activeChain_eq hD
  refine ⟨?_, ?_⟩
  · intro fuel hfuel
    rw [h.collectFrom_fuel hD fromHeight hfuel]
    exact h.tracks.getBlocksFrom_eq hD fromHeight limit
  -- the rest is about a list of consecutive heights, from which a window is cut
  rw [h.getBlocksFrom_eq hD, hchain]
  refine ⟨h.rungs.window_eq, h.rungs.map_window, (h.isChain_reverse.drop _).take _, ?_⟩
  have hmore := h.rungs.limit_lt_iff fromHeight.toNat limit
  simpa only [decide_eq_true_eq, List.mem_reverse, UInt64.le_iff_toNat_le, UInt64.lt_iff_toNat_lt]
    using hmore

end ChainState

namespace Devnet

open ChainState

/-- After the reorganization to the second block of the fork, two blocks from the genesis block on:
one more is left. -/
theorem fork_served :
    let s := deliver [genesis, firstBlock, rivalBlock, secondBlock]
    (s.getBlocksFrom 0 2).1.map (fun b => b.height.toNat) = [0, 1] ∧
      (s.getBlocksFrom 0 2).1.IsChain Follows ∧
      ∃ b ∈ s.activeChain, ∀ b' ∈ (s.getBlocksFrom 0 2).1, b'.height < b.height := by
  have hrun : (zeroHash :: [genesis, firstBlock, rivalBlock, secondBlock].map Block.hash).Nodup ∧
      ((ChainState.new : ChainState crypto).applyBlock genesis).2.isApplied = true ∧
      (deliver [genesis, firstBlock, rivalBlock, secondBlock]).currentHeight = 2 ∧
      ((deliver [genesis, firstBlock, rivalBlock, secondBlock]).getBlocksFrom 0 2).2 = true := by
    decide +kernel
  obtain ⟨hnodup, hgenesis, hheight, hmore⟩ := hrun
  obtain ⟨-, -, hheights, hlinked, hhas⟩ :=
    blocks_served (distinctHashes_of_nodup hnodup) ⟨rfl, rfl⟩ hgenesis rfl 0 2
  obtain ⟨b, hb, -, habove⟩ := hhas.mp hmore
  rw [hheight] at hheights
  exact ⟨hheights, hlinked, b, hb, habove⟩

end Devnet

end Haze
