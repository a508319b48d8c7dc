import Haze.Block
import Haze.Lib.Eras

/-!
# The supply cap

The reward halves every 12,600,000 blocks, with the remainder cut off, until the tenth halving leaves
nothing. Together with what genesis mints, all rewards there will ever be stay below the target, so the sum
that `aggregate_validate` takes over all heights never wraps.
-/

namespace Haze

/-- `(1..=tip_height).map(block_reward_at).sum()`, as a `u64`. -/
def rewardSum (tipHeight : UInt64) : UInt64 :=
  ((List.range tipHeight.toNat).map fun i => blockRewardAt (UInt64.ofNat (i + 1))).sum

/-- What the schedule has issued up to a height. -/
def issued (height : ℕ) : ℕ :=
  genesisTotalMinted.toNat
    + ((List.range height).map fun i => (blockRewardAt (UInt64.ofNat (i + 1))).toNat).sum

theorem issued_succ (height : ℕ) :
    issued (height + 1) = issued height + (blockRewardAt (UInt64.ofNat (height + 1))).toNat := by
  simp only [issued, List.range_succ, List.map_append, List.sum_append, List.map_singleton,
    List.sum_singleton]
  omega

/-! ## The schedule by eras

An era is the stretch of 12,600,000 heights that share a reward. The reward of an era is 540 shifted right
by the number of the era; from the tenth era on it is zero. -/

/-- What each height of an era pays. -/
def eraReward (era : ℕ) : ℕ := 540 / 2 ^ era

theorem eraReward_antitone {era era' : ℕ} (h : era ≤ era') : eraReward era' ≤ eraReward era :=
  Nat.div_le_div_left (Nat.pow_le_pow_right (by decide) h) (Nat.two_pow_pos era)

theorem eraReward_tail (era : ℕ) (h : 10 ≤ era) : eraReward era = 0 := by
  apply Nat.div_eq_of_lt
  calc 540 < 2 ^ 10 := by decide
    _ ≤ 2 ^ era := Nat.pow_le_pow_right (by decide) h

-- the guard against shifting by 64 or more only cuts off eras that pay nothing
theorem toNat_blockRewardAt (height : UInt64) :
    (blockRewardAt height).toNat = eraReward (height.toNat / 12_600_000) := by
  have hhalvings : (height / halvingIntervalBlocks).toNat = height.toNat / 12_600_000 :=
    UInt64.toNat_div _ _
  unfold blockRewardAt
  simp only
  split
  next hlate =>
    rw [ge_iff_le, UInt64.le_iff_toNat_le, hhalvings] at hlate
    exact (eraReward_tail _ (Nat.le_trans (by decide) hlate)).symm
  next hearly =>
    rw [ge_iff_le, UInt64.le_iff_toNat_le, hhalvings] at hearly
    have hshift : height.toNat / 12_600_000 < 64 := Nat.lt_of_not_le hearly
    rw [UInt64.toNat_shiftRight, hhalvings, Nat.mod_eq_of_lt hshift, Nat.shiftRight_eq_div_pow]
    rfl

theorem blockRewardAt_antitone {height height' : UInt64} (h : height ≤ height') :
    blockRewardAt height' ≤ blockRewardAt height := by
  rw [UInt64.le_iff_toNat_le, toNat_blockRewardAt, toNat_blockRewardAt]
  exact eraReward_antitone (Nat.div_le_div_right (UInt64.le_iff_toNat_le.mp h))

/-! ## All rewards

Summed over whole eras the schedule pays at most 13,557,600,000, and genesis mints 7,351,000,000. Together
that is below the target of 21,000,000,000 and far from the bound of a `u64`, whatever the tip height. -/

/-- All rewards of ten eras. -/
theorem paid_eraReward_le (n : ℕ) : Eras.paid 12_600_000 eraReward n ≤ 13_557_600_000 := by
  have hten : 12_600_000 * ∑ e ∈ Finset.range 10, eraReward e = 13_557_600_000 := by decide
  exact hten ▸ Eras.paid_le (by decide) eraReward_tail n

/-- Height 0 is genesis, so the sum leaves the first place out. -/
theorem sum_blockRewardAt {n : ℕ} (hn : n < 2 ^ 64) :
    ((List.range n).map fun i => (blockRewardAt (UInt64.ofNat (i + 1))).toNat).sum + eraReward 0 =
      Eras.paid 12_600_000 eraReward (n + 1) := by
  have hplace : ∀ i ∈ Finset.range n, (blockRewardAt (UInt64.ofNat (i + 1))).toNat =
      eraReward ((i + 1) / 12_600_000) := by
    intro i hi
    have hlt := Finset.mem_range.mp hi
    rw [toNat_blockRewardAt, UInt64.toNat_ofNat_of_lt' (show i + 1 < 2 ^ 64 by omega)]
  have hsum : ((List.range n).map fun i => (blockRewardAt (UInt64.ofNat (i + 1))).toNat).sum =
      ∑ i ∈ Finset.range n, eraReward ((i + 1) / 12_600_000) := by
    rw [← Finset.sum_congr rfl hplace]
    rfl
  rw [hsum, Eras.paid, Finset.sum_range_succ', Nat.zero_div]

theorem issued_le {n : ℕ} (hn : n < 2 ^ 64) : issued n ≤ totalSupplyTarget.toNat := by
  have hgenesis : genesisTotalMinted.toNat = 7_351_000_000 := by decide
  have htarget : totalSupplyTarget.toNat = 21_000_000_000 := by decide
  have hsum := sum_blockRewardAt hn
  have hbound := paid_eraReward_le (n + 1)
  rw [issued, hgenesis, htarget]
  omega

/-- The `u64` sum is the sum. -/
theorem toNat_rewardSum (height : UInt64) :
    (rewardSum height).toNat =
      ((List.range height.toNat).map fun i => (blockRewardAt (UInt64.ofNat (i + 1))).toNat).sum := by
  have hcap := issued_le height.toNat_lt
  have htarget := totalSupplyTarget.toNat_lt
  rw [issued] at hcap
  unfold rewardSum
  rw [toNat_sum, List.map_map]
  apply Nat.mod_eq_of_lt
  simp only [Function.comp_def]
  omega

theorem toNat_totalRewardIssued (height : UInt64) :
    (genesisTotalMinted + rewardSum height).toNat = issued height.toNat := by
  have hcap := issued_le height.toNat_lt
  rw [UInt64.toNat_add, toNat_rewardSum]
  exact Nat.mod_eq_of_lt (Nat.lt_of_le_of_lt hcap totalSupplyTarget.toNat_lt)

/-- **The supply cap.** At every tip height the `u64` sum of `aggregate_validate` is the sum of all
rewards, and with what genesis mints at most the target; and rewards never rise. -/
theorem supply_capped (tipHeight : UInt64) :
    (rewardSum tipHeight).toNat =
        ((List.range tipHeight.toNat).map fun i => (blockRewardAt (UInt64.ofNat (i + 1))).toNat).sum ∧
      (genesisTotalMinted + rewardSum tipHeight).toNat = issued tipHeight.toNat ∧
      genesisTotalMinted + rewardSum tipHeight ≤ totalSupplyTarget ∧
      ∀ height height' : UInt64, height ≤ height' → blockRewardAt height' ≤ blockRewardAt height := by
  refine ⟨toNat_rewardSum tipHeight, toNat_totalRewardIssued tipHeight, ?_, ?_⟩
  · rw [UInt64.le_iff_toNat_le, toNat_totalRewardIssued]
    exact issued_le tipHeight.toNat_lt
  · intro height height' h
    exact blockRewardAt_antitone h

end Haze
