import Haze.Chain.Runs

/-!
# Serving a range of the active chain (`ChainState::get_blocks_from`)

A peer that catches up asks for blocks from a height on. The walk from the tip collects them newest
first; they are served oldest first, at most `limit` at a time.
-/

namespace Haze

namespace ChainState

variable {P : Crypto} {D : Block P → Prop} {s : ChainState P} {chain : List (Block P)}

-- the loop of `get_blocks_from`
def collectFrom (blocks : KeyedMap Bytes32 (Block P)) (fromHeight : UInt64) :
    ℕ → Bytes32 → List (Block P)
  | 0, _ => []
  | fuel + 1, hash =>
      match blocks.lookup hash with
      | none => []
      | some b =>
          if b.height < fromHeight then []
          else b :: if b.height = 0 then [] else collectFrom blocks fromHeight fuel b.header.prevHash

/-- `ChainState::get_blocks_from`: the blocks, and whether there are more than `limit`. -/
def getBlocksFrom (s : ChainState P) (fromHeight : UInt64) (limit : ℕ) : List (Block P) × Bool :=
  let collected := (collectFrom s.blocks fromHeight (s.blocks.keys.card + 1) s.lastBlockHash).reverse
  (collected.take limit, decide (collected.length > limit))

theorem collectFrom_eq {blocks : KeyedMap Bytes32 (Block P)} {fromHeight : UInt64} {fuel n : ℕ}
    {hash : Bytes32} (hroot : blocks.lookup zeroHash = none)
    (h : (blockLinks P).Linked blocks hash n chain) (hfuel : chain.length < fuel) :
    collectFrom blocks fromHeight fuel hash =
      chain.takeWhile fun b => decide (fromHeight ≤ b.height) := by
  induction chain generalizing fuel n hash with
  | nil =>
      obtain ⟨rfl, -⟩ := h
      have hnone : blocks.lookup (blockLinks P).root = none := hroot
      cases fuel with
      | zero => rfl
      | succ fuel => simp [collectFrom, hnone]
  -- the loop stops below the height asked for, or at the genesis block
  | cons b rest ih =>
      obtain ⟨hlookup, hheight, hrest⟩ := h
      have hheight' : b.height.toNat = n := hheight
      cases fuel with
      | zero => simp at hfuel
      | succ fuel =>
          rw [List.length_cons] at hfuel
          simp only [collectFrom, hlookup]
          by_cases hlow : b.height < fromHeight
          · rw [if_pos hlow, List.takeWhile_cons_of_neg (by simpa using hlow)]
          rw [if_neg hlow, List.takeWhile_cons_of_pos (by simpa using hlow)]
          congr 1
          split at hrest
          next h0 =>
            have hb0 : b.height = 0 := UInt64.toNat_inj.mp (hheight'.trans h0)
            rw [if_pos hb0, hrest, List.takeWhile_nil]
          next h0 =>
            have hb0 : b.height ≠ 0 := by
              intro hb0
              rw [hb0] at hheight'
              exact h0 hheight'.symm
            rw [if_neg hb0]
            exact ih hrest (by omega)

/-- What is served is the active chain from the height on, oldest block first. -/
theorem Tracks.getBlocksFrom_eq (hD : DistinctHashes D) (h : Tracks D s chain) (fromHeight : UInt64)
    (limit : ℕ) :
    s.getBlocksFrom fromHeight limit =
      let served := (chain.takeWhile fun b => decide (fromHeight ≤ b.height)).reverse
      (served.take limit, decide (served.length > limit)) := by
  have hlen := h.linked.length_le h.keyed
  rw [getBlocksFrom, collectFrom_eq (h.keyed.lookup_root hD) h.linked (Nat.lt_succ_of_le hlen)]

/-- Heights go down by one along a path, so what is served is its top. -/
theorem takeWhile_height {blocks : KeyedMap Bytes32 (Block P)} {k : Bytes32} {n : ℕ} {h : UInt64}
    (hlinked : (blockLinks P).Linked blocks k n chain) (hh : h ≠ 0) :
    chain.takeWhile (fun b => decide (h ≤ b.height)) = chain.take (n + 1 - h.toNat) := by
  have hpos : 0 < h.toNat := by
    rw [Nat.pos_iff_ne_zero]
    intro h0
    exact hh (UInt64.toNat_inj.mp h0)
  induction chain generalizing k n with
  | nil => simp
  | cons b rest ih =>
      obtain ⟨-, hheight, hrest⟩ := hlinked
      have hheight' : b.height.toNat = n := hheight
      -- the first block is high enough, or the first that is not, and then nothing below it is
      by_cases hle : h ≤ b.height
      · have hle' : h.toNat ≤ n := hheight' ▸ UInt64.le_iff_toNat_le.mp hle
        obtain ⟨m, hm⟩ : ∃ m, n + 1 - h.toNat = m + 1 := ⟨n - h.toNat, by omega⟩
        rw [List.takeWhile_cons_of_pos (by simpa using hle), hm, List.take_succ_cons]
        congr 1
        split at hrest
        next h0 => omega
        next h0 =>
          rw [ih hrest]
          congr 1
          omega
      · have hlt : n < h.toNat := by
          rw [← hheight', ← UInt64.lt_iff_toNat_lt]
          exact UInt64.not_le.mp hle
        have hzero : n + 1 - h.toNat = 0 := by omega
        rw [List.takeWhile_cons_of_neg (by simpa using hle), hzero, List.take_zero]

end ChainState

end Haze
