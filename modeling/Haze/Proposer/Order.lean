import Haze.Lib.Draw
import Haze.Proposer.Round

/-!
# Whose turn it is, and who is next (`ChainState::proposer_priority_order`)

Every validator gets a rank. The first is drawn by stake, with a seed from the height and the block below;
each later one in the same way from the validators that are left, with the rank in the seed. The loop keeps
a running target instead of the ends of the intervals, and falls back to index 0 when no validator matches,
which does not happen while the stakes are positive and their sum fits into a `u64`.
-/

namespace Haze

namespace ChainState

open Draw

variable {P : Crypto} {pool : List (Validator P)}

/-- `ChainState::select_proposer`; `none` where `[0]` is out of bounds. -/
def selectProposer (s : ChainState P) (height : UInt64) (prevHash : Bytes32) : Option (Commitment P) :=
  (s.proposerPriorityOrder height prevHash)[0]?

def stake (v : Validator P) : ℕ := v.value.toNat

/-- The seed of a rank. -/
def seedOf (P : Crypto) (height : UInt64) (prevHash : Bytes32) (round : ℕ) : ℕ :=
  (drawSeed P height prevHash round).toNat

/-- The running target finds the interval. -/
theorem drawIndex_spec (target : UInt64) (h : target.toNat < totalWeight stake pool) :
    ∃ pre v post, drawIndex pool target = some pre.length ∧ Owns stake pool target.toNat pre v post := by
  induction pool generalizing target with
  | nil => exact absurd h (Nat.not_lt_zero _)
  | cons v pool ih =>
      rw [totalWeight_cons] at h
      rw [drawIndex]
      by_cases hlt : target < v.value
      · refine ⟨[], v, pool, if_pos hlt, rfl, Nat.zero_le _, ?_⟩
        rw [UInt64.lt_iff_toNat_lt] at hlt
        exact Nat.lt_of_lt_of_le hlt (Nat.le_add_left _ _)
      · have hle : v.value ≤ target := UInt64.not_lt.mp hlt
        have hsub : (target - v.value).toNat = target.toNat - stake v := UInt64.toNat_sub_of_le _ _ hle
        have hv : stake v ≤ target.toNat := UInt64.le_iff_toNat_le.mp hle
        obtain ⟨pre, w, post, hindex, howns⟩ := ih (target - v.value) (by
          rw [hsub]
          omega)
        refine ⟨v :: pre, w, post, ?_, ?_, ?_, ?_⟩
        · rw [if_neg hlt, hindex]
          rfl
        · rw [howns.split]
          rfl
        · have hlower := howns.lower
          rw [hsub] at hlower
          rw [totalWeight_cons]
          omega
        · have hupper := howns.upper
          rw [hsub] at hupper
          rw [totalWeight_cons]
          omega

/-- What registration enforces of the stakes, and that their sum does not wrap. -/
structure Weighted (pool : List (Validator P)) : Prop where
  positive : ∀ v ∈ pool, minValidatorStake ≤ v.value
  fits : totalWeight stake pool < 2 ^ 64

theorem Weighted.toNat_sum (h : Weighted pool) :
    (pool.map Validator.value).sum.toNat = totalWeight stake pool := by
  rw [Haze.toNat_sum, List.map_map]
  exact Nat.mod_eq_of_lt h.fits

theorem Weighted.totalWeight_pos (h : Weighted pool) (hne : pool ≠ []) : 0 < totalWeight stake pool := by
  cases pool with
  | nil => exact absurd rfl hne
  | cons v pool =>
      have hv : 1 ≤ stake v := UInt64.le_iff_toNat_le.mp (h.positive v List.mem_cons_self)
      rw [totalWeight_cons]
      omega

/-- What is left after a draw. -/
theorem Weighted.rest {pre post : List (Validator P)} {v : Validator P} (h : Weighted (pre ++ v :: post)) :
    Weighted (pre ++ post) := by
  have hsub : (pre ++ post).Sublist (pre ++ v :: post) :=
    (List.Sublist.refl pre).append (List.sublist_cons_self v post)
  refine ⟨fun w hw => h.positive w (hsub.subset hw), Nat.lt_of_le_of_lt ?_ h.fits⟩
  rw [totalWeight_append, totalWeight_append, totalWeight_cons]
  omega

/-- The loop draws the order. -/
theorem drawn_drawOrder (height : UInt64) (prevHash : Bytes32) {n : ℕ} (round : ℕ)
    (hlength : pool.length = n) (h : Weighted pool) :
    ∃ order, drawOrder height prevHash n round pool = order.map Validator.commitment ∧
      Drawn stake (seedOf P height prevHash) round pool order := by
  induction n generalizing pool round with
  | zero =>
      obtain rfl := List.length_eq_zero_iff.mp hlength
      exact ⟨[], rfl, .nil⟩
  | succ n ih =>
      have hpos := h.totalWeight_pos (List.ne_nil_of_length_eq_add_one hlength)
      have htotal : (pool.map Validator.value).sum ≠ 0 := by
        intro hzero
        rw [← h.toNat_sum, hzero] at hpos
        exact absurd hpos (Nat.lt_irrefl 0)
      have htarget : (drawSeed P height prevHash round % (pool.map Validator.value).sum).toNat =
          seedOf P height prevHash round % totalWeight stake pool := by
        rw [UInt64.toNat_mod, h.toNat_sum]
        rfl
      obtain ⟨pre, v, post, hindex, howns⟩ := drawIndex_spec
        (drawSeed P height prevHash round % (pool.map Validator.value).sum)
        (htarget ▸ Nat.mod_lt _ hpos)
      rw [htarget] at howns
      have hpicked : pool[pre.length]? = some v := by
        rw [howns.split, List.getElem?_append_right (Nat.le_refl _), Nat.sub_self]
        rfl
      have hleft : pool.eraseIdx pre.length = pre ++ post := by
        rw [howns.split, List.eraseIdx_append_of_length_le (Nat.le_refl _), Nat.sub_self]
        rfl
      have hcount : (pre ++ post).length = n := by
        rw [howns.split, List.length_append, List.length_cons] at hlength
        rw [List.length_append]
        omega
      obtain ⟨order, horder, hdrawn⟩ := ih (round + 1) hcount (howns.split ▸ h).rest
      refine ⟨v :: order, ?_, .cons howns hdrawn⟩
      rw [drawOrder]
      simp only [if_neg htotal, hindex, Option.getD_some, hpicked, hleft, horder, List.map_cons]

/-- **The proposer order.** The order is a permutation of the validators, the one that draws by stake give;
rank `k` falls to the validator whose interval among those that are left holds the seed of the rank, modulo
what they stake together; and rank 0 is the proposer. -/
theorem priority_order_drawn (s : ChainState P) (height : UInt64) (prevHash : Bytes32)
    (hne : s.activeValidators ≠ []) (hpositive : ∀ v ∈ s.activeValidators, minValidatorStake ≤ v.value)
    (hfits : totalWeight stake s.activeValidators < 2 ^ 64) :
    ∃ order : List (Validator P),
      s.proposerPriorityOrder height prevHash = order.map Validator.commitment ∧
      order.Perm s.activeValidators ∧
      (∀ k v, order[k]? = some v → ∃ rest pre post, rest.Sublist s.activeValidators ∧
        rest.Perm (order.drop k) ∧
        Owns stake rest (seedOf P height prevHash k % totalWeight stake rest) pre v post) ∧
      (∀ order', Drawn stake (seedOf P height prevHash) 0 s.activeValidators order' → order' = order) ∧
      ∃ v, order[0]? = some v ∧ s.selectProposer height prevHash = some v.commitment := by
  obtain ⟨order, horder, hdrawn⟩ := drawn_drawOrder height prevHash 0 rfl ⟨hpositive, hfits⟩
  have heq : s.proposerPriorityOrder height prevHash = order.map Validator.commitment := by
    rw [proposerPriorityOrder, if_neg (by simpa using hne), horder]
  refine ⟨order, heq, hdrawn.perm, ?_, fun order' h' => h'.unique hdrawn, ?_⟩
  · intro k v hv
    obtain ⟨rest, pre, post, hsub, hperm, howns⟩ := hdrawn.rank hv
    rw [Nat.zero_add] at howns
    exact ⟨rest, pre, post, hsub, hperm, howns⟩
  · cases order with
    | nil => exact absurd hdrawn.perm.symm.eq_nil hne
    | cons v order => exact ⟨v, rfl, by rw [selectProposer, heq]; rfl⟩

end ChainState

namespace Devnet

/-- A validator with this stake. -/
def staked (value : UInt64) (r : BitVec 256) : Validator crypto :=
  ⟨Commitment.new (P := crypto) value r, value, Signature.zero⟩

def threeStakes : ChainState crypto :=
  { ChainState.new with activeValidators := [staked 1000 11, staked 2000 12, staked 3000 13] }

/-- Three validators and their order at height 5. -/
theorem threeStakes_order :
    ∃ order : List (Validator crypto),
      threeStakes.proposerPriorityOrder 5 zeroHash = order.map Validator.commitment ∧
      order.Perm threeStakes.activeValidators ∧
      ∃ v, order[0]? = some v ∧ threeStakes.selectProposer 5 zeroHash = some v.commitment := by
  have hpositive : ∀ v ∈ threeStakes.activeValidators, minValidatorStake ≤ v.value := by decide +kernel
  have hfits : Draw.totalWeight ChainState.stake threeStakes.activeValidators < 2 ^ 64 := by decide +kernel
  obtain ⟨order, heq, hperm, -, -, hfirst⟩ :=
    ChainState.priority_order_drawn threeStakes 5 zeroHash (List.cons_ne_nil _ _) hpositive hfits
  exact ⟨order, heq, hperm, hfirst⟩

end Devnet

end Haze
