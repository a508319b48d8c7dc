import Haze.Chain.Runs
import Haze.Devnet

/-!
# The block database under rejected blocks

`apply_block` stores a block before it looks at the chain, under a header hash that does not cover the
body or the operations. A rejected block with the header of a stored one therefore takes its place.
-/

namespace Haze

namespace ChainState

variable {P : Crypto} {s : ChainState P} {b : Block P}

/-- A rejected delivery leaves its mark exactly when the block passes its standalone check. -/
theorem applyBlock_rejected (h : (s.applyBlock b).2.isApplied = false) :
    (s.applyBlock b).1 = if b.validate then s.storeBlock b else s := by
  have houtcome := outcome_applyBlock s b
  generalize s.applyBlock b = r at h houtcome ⊢
  cases houtcome with
  | invalid hval => rw [hval, if_neg Bool.false_ne_true]
  | refused hval => rw [hval, if_pos rfl]
  | linear _ _ => cases h
  | reorg _ _ _ _ _ => cases h

/-- Storing a block once more changes nothing. -/
theorem storeBlock_of_stored (h : s.blocks.lookup b.hash = some b) : s.storeBlock b = s := by
  have hblocks : s.blocks.insert b.hash b = s.blocks := by
    apply Finmap.ext_lookup
    intro k
    by_cases hk : k = b.hash
    · rw [hk, Finmap.lookup_insert, h]
    · rw [Finmap.lookup_insert_of_ne _ hk]
  rw [storeBlock, hblocks]

theorem applyBlock_of_stored (h : (s.applyBlock b).2.isApplied = false)
    (hstored : s.blocks.lookup b.hash = some b) : (s.applyBlock b).1 = s := by
  rw [applyBlock_rejected h, storeBlock_of_stored hstored, ite_self]

theorem lookup_storeBlock_of_ne {hash : Bytes32} (h : hash ≠ b.hash) :
    (s.storeBlock b).blocks.lookup hash = s.blocks.lookup hash :=
  Finmap.lookup_insert_of_ne _ h

theorem lookup_storeBlock_self : (s.storeBlock b).blocks.lookup b.hash = some b :=
  Finmap.lookup_insert _

/-- Every block met from the tip is stored as it was. -/
def WalkUnchanged (s s' : ChainState P) : Prop :=
  ∀ hash old, OnWalk s hash → s.blocks.lookup hash = some old → s'.blocks.lookup hash = some old

/-- **Rejected blocks and the active chain.** Nothing met from the tip changes, exactly when the block
fails its standalone check or is not an alteration of a block met from the tip. -/
theorem walkUnchanged_iff (h : (s.applyBlock b).2.isApplied = false) :
    WalkUnchanged s (s.applyBlock b).1 ↔
      (b.validate = true → OnWalk s b.hash → ∀ old, s.blocks.lookup b.hash = some old → old = b) := by
  rw [applyBlock_rejected h]
  by_cases hval : b.validate = true
  swap
  · rw [if_neg hval]
    exact ⟨fun _ hv => absurd hv hval, fun _ _ _ _ hold => hold⟩
  rw [if_pos hval]
  constructor
  · intro hsame _ hwalk old hold
    have hnew := hsame b.hash old hwalk hold
    rw [lookup_storeBlock_self] at hnew
    exact (Option.some.inj hnew).symm
  · intro hno hash old hwalk hold
    by_cases hhash : hash = b.hash
    · subst hhash
      rw [hno hval hwalk old hold, lookup_storeBlock_self]
    · rw [lookup_storeBlock_of_ne hhash, hold]

end ChainState

namespace Devnet

open ChainState

/-- A block whose parent the node has not seen. -/
def orphan : Block crypto :=
  mine (deliver [genesis, mine (deliver [genesis]) (coinbase 1 11)]) (coinbase 2 12)

theorem orphan_leaves_walk :
    WalkUnchanged (deliver [genesis]) ((deliver [genesis]).applyBlock orphan).1 := by
  have horphan : ((deliver [genesis]).applyBlock orphan).2.isApplied = false ∧
      ((deliver [genesis]).blocks.lookup orphan.hash).isNone = true := by
    decide +kernel
  obtain ⟨hrejected, hnone⟩ := horphan
  apply (walkUnchanged_iff hrejected).mpr
  intro _ _ old hold
  rw [hold] at hnone
  cases hnone

/-- The header of genesis over another body. -/
def impostor : Block crypto :=
  { genesis with body := ⟨[], [output genesisTotalMinted 9], [kernel (0 - 9) 0]⟩ }

theorem impostor_replaces_genesis :
    ((deliver [genesis]).applyBlock impostor).2.isApplied = false ∧
      ¬ WalkUnchanged (deliver [genesis]) ((deliver [genesis]).applyBlock impostor).1 := by
  have himpostor : ((deliver [genesis]).applyBlock impostor).2.isApplied = false ∧
      ((deliver [genesis]).blocks.lookup (deliver [genesis]).lastBlockHash).map
        (fun b => b.body.outputs.length) = some 2 ∧
      (((deliver [genesis]).applyBlock impostor).1.blocks.lookup
        (deliver [genesis]).lastBlockHash).map (fun b => b.body.outputs.length) = some 1 := by
    decide +kernel
  obtain ⟨hrejected, hold, hnew⟩ := himpostor
  refine ⟨hrejected, ?_⟩
  intro hsame
  obtain ⟨old, hlookup, hlen⟩ := Option.map_eq_some_iff.mp hold
  rw [hsame _ old .tip hlookup, Option.map_some, hlen] at hnew
  cases hnew

end Devnet

end Haze
