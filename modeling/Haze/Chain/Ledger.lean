import Haze.Chain.Undo
import Haze.Chain.Kernels

/-!
# The ledger a chain stands for

`coinsOf` and `validatorsOf` replay a chain from nothing: they say what the UTXO set and the validator
set *should* be, as functions of the blocks alone. The state keeps to them while blocks are applied,
and through a reorganization as long as the rollback is exact. Two results rest on this: stakes stay
backed by coins, and the tip hash determines the state.
-/

namespace Haze

variable {P : Crypto}

/-! ## Replaying a chain

The coins and the validators of a chain, computed from its blocks alone. -/

/-- The coins after the blocks of a chain, tip first. -/
def coinsOf : List (Block P) → Finset (Commitment P)
  | [] => ∅
  | b :: rest => Coins.applyAll (coinsOf rest) b.moves

/-- One block's effect on the validators: registrations, then the stakes its body spends. -/
def nextValidators (validators : List (Validator P)) (b : Block P) : List (Validator P) :=
  (registerAll validators b.validatorOps).filter fun v => v.commitment ∉ b.bodySpent

/-- The validators after the blocks of a chain, tip first. -/
def validatorsOf : List (Block P) → List (Validator P)
  | [] => []
  | b :: rest => nextValidators (validatorsOf rest) b

/-- Every block above genesis spends coins that exist below it. -/
def Covered : List (Block P) → Prop
  | [] => True
  | b :: rest => (b.height ≠ 0 → ∀ t ∈ b.moves, ∀ x ∈ t.ins, x ∈ coinsOf rest) ∧ Covered rest

/-- The top `n` blocks can be taken back coin for coin. -/
def CleanTop : ℕ → List (Block P) → Prop
  | n + 1, b :: rest => Coins.Reabsorbed (coinsOf rest) b.moves ∧ CleanTop n rest
  | _, _ => True

instance : (n : ℕ) → (chain : List (Block P)) → Decidable (CleanTop n chain)
  | 0, [] => isTrue trivial
  | 0, _ :: _ => isTrue trivial
  | _ + 1, [] => isTrue trivial
  | n + 1, _ :: rest =>
      have : Decidable (CleanTop n rest) := instDecidableCleanTop n rest
      inferInstanceAs (Decidable (_ ∧ _))

namespace ChainState

variable {D : Block P → Prop} {s : ChainState P} {b : Block P} {c : Candidate P}
  {chain : List (Block P)}

/-! ## Coins

As long as every rollback is exact, the coins of the state are those that its chain leads to. -/

/-- The UTXO set is the one the chain stands for. -/
structure HoldsCoins (s : ChainState P) (chain : List (Block P)) : Prop where
  utxos : s.utxos = coinsOf chain
  covered : Covered chain

theorem HoldsCoins.new : HoldsCoins (ChainState.new : ChainState P) [] :=
  ⟨rfl, trivial⟩

theorem HoldsCoins.commitBlock (h : HoldsCoins s chain) (hacc : Accepted s b c) :
    HoldsCoins (s.commitBlock b c).1 (b :: chain) := by
  refine ⟨?_, ?_, h.covered⟩
  · show Coins.applyAll s.utxos b.moves = Coins.applyAll (coinsOf chain) b.moves
    rw [h.utxos]
  · intro hpos
    rw [← h.utxos]
    exact hacc.moves_mem hpos

theorem HoldsCoins.revertBlocks {n : ℕ} (h : HoldsCoins s chain)
    (hpos : ∀ b ∈ chain.take n, b.height ≠ 0) (hclean : CleanTop n chain) :
    HoldsCoins (s.revertBlocks (chain.take n)) (chain.drop n) := by
  induction n generalizing s chain with
  | zero => exact h
  | succ n ih =>
      cases chain with
      | nil => exact h
      | cons b rest =>
          obtain ⟨hne, hpos⟩ := List.forall_mem_cons.mp hpos
          obtain ⟨hb, hclean⟩ := hclean
          obtain ⟨hcovered, hrest⟩ := h.covered
          refine ih (s := (s.revertBlock b).1) ⟨?_, hrest⟩ hpos hclean
          show Coins.revertAll s.utxos (b.transactions.map Transaction.move) = coinsOf rest
          rw [h.utxos, ← moves_of_pos hne]
          exact (Coins.revertAll_applyAll_iff (hcovered hne)).mpr hb

/-- If the delivery reorganizes, every block it rolls back can be taken back coin for coin: each
output it created over an existing coin was consumed again within the block. -/
def RevertsCleanly (s : ChainState P) (b : Block P) : Prop :=
  ∀ r ∈ s.reorgOf b, CleanTop r.1 s.activeChain

instance (s : ChainState P) (b : Block P) : Decidable (RevertsCleanly s b) :=
  inferInstanceAs (Decidable (∀ r ∈ s.reorgOf b, CleanTop r.1 s.activeChain))

/-! ## Validator snapshots

A block that is applied keeps the validators from before it, under its own height. So for each block of the
chain the record has what was in force below it. -/

/-- The snapshots kept for the blocks of a chain: each is the validator set below its block, as far as
`R` can tell. Below a chain that has no genesis block there is none. -/
def History (R : List (Block P) → List (Validator P) → Prop)
    (snapshots : KeyedMap UInt64 (List (Validator P))) : List (Block P) → Prop
  | [] => snapshots.lookup 0 = none
  | b :: rest => (∃ vs, snapshots.lookup b.height = some vs ∧ R rest vs) ∧
      (b.height ≠ 0 → History R snapshots rest)

variable {R : List (Block P) → List (Validator P) → Prop}

/-- Only the snapshots up to the height of the tip matter. -/
theorem History.congr {snapshots snapshots' : KeyedMap UInt64 (List (Validator P))}
    {blocks : KeyedMap Bytes32 (Block P)} {hash : Bytes32} {n : ℕ}
    (h : History R snapshots chain) (hlinked : (blockLinks P).Linked blocks hash n chain)
    (hsame : ∀ k : UInt64, k.toNat ≤ n → snapshots'.lookup k = snapshots.lookup k) :
    History R snapshots' chain := by
  induction chain generalizing hash n with
  | nil =>
      have h0 : snapshots'.lookup 0 = snapshots.lookup 0 := hsame 0 (Nat.zero_le n)
      exact h0.trans h
  | cons b rest ih =>
      obtain ⟨-, hheight, hrest⟩ := hlinked
      have hn : b.height.toNat = n := hheight
      obtain ⟨⟨vs, hvs, hR⟩, hbelow⟩ := h
      refine ⟨⟨vs, ?_, hR⟩, ?_⟩
      · rw [hsame b.height (le_of_eq hn), hvs]
      · intro hne
        have hn0 : n ≠ 0 := by
          intro h0
          exact hne (UInt64.toNat_inj.mp (hn.trans h0))
        rw [if_neg hn0] at hrest
        exact ih (hbelow hne) hrest fun k hk => hsame k (by omega)

theorem History.drop {snapshots : KeyedMap UInt64 (List (Validator P))} {n : ℕ}
    (h : History R snapshots chain) (hpos : ∀ b ∈ chain.take n, b.height ≠ 0) :
    History R snapshots (chain.drop n) := by
  induction n generalizing chain with
  | zero => exact h
  | succ n ih =>
      cases chain with
      | nil => exact h
      | cons b rest =>
          obtain ⟨hne, hpos⟩ := List.forall_mem_cons.mp hpos
          exact ih (h.2 hne) hpos

/-- The validators and all snapshots of them answer to `R`. -/
structure Validated (R : List (Block P) → List (Validator P) → Prop) (s : ChainState P)
    (chain : List (Block P)) : Prop where
  current : R chain s.activeValidators
  history : History R s.validatorSnapshots chain

theorem Accepted.activeValidators_eq (hacc : Accepted s b c) :
    (s.commitBlock b c).1.activeValidators = nextValidators s.activeValidators b := by
  show c.validators.filter _ = _
  rw [hacc.validators]
  rfl

theorem Validated.commitBlock (h : Validated R s chain) (htracks : Tracks D s chain)
    (hacc : Accepted s b c) (hnext : R (b :: chain) (nextValidators s.activeValidators b)) :
    Validated R (s.commitBlock b c).1 (b :: chain) := by
  refine ⟨?_, ⟨s.activeValidators, Finmap.lookup_insert _, h.current⟩, ?_⟩
  · rw [hacc.activeValidators_eq]
    exact hnext
  · intro hne
    apply h.history.congr htracks.linked
    intro k hk
    apply Finmap.lookup_insert_of_ne
    intro heq
    have hfollows := (hacc.follows hne).1
    rw [heq] at hk
    omega

/-! ## What a rollback restores

A rollback reads the record at the height it comes to, and that is what was in force one block further
down. -/

/-- The snapshot `n` heights below the tip: what is restored when `n` blocks are rolled back. -/
def snapshotBelow (s : ChainState P) (n : ℕ) : List (Validator P) :=
  (s.validatorSnapshots.lookup (s.currentHeight - UInt64.ofNat n)).getD []

/-- After a rollback the validators are those of the snapshot at the new height, and the snapshots up
to there are untouched. -/
theorem Tracks.revertBlocks_validators {n : ℕ} (h : Tracks D s chain) (hle : n ≤ chain.length)
    (hpos : ∀ b ∈ chain.take n, b.height ≠ 0) :
    (s.revertBlocks (chain.take n)).currentHeight.toNat + n = s.currentHeight.toNat ∧
      (∀ k : UInt64, k.toNat ≤ (s.revertBlocks (chain.take n)).currentHeight.toNat →
        (s.revertBlocks (chain.take n)).validatorSnapshots.lookup k =
          s.validatorSnapshots.lookup k) ∧
      (n ≠ 0 → (s.revertBlocks (chain.take n)).activeValidators =
        (s.validatorSnapshots.lookup (s.revertBlocks (chain.take n)).currentHeight).getD []) := by
  induction n generalizing s chain with
  | zero => exact ⟨rfl, fun _ _ => rfl, fun h0 => absurd rfl h0⟩
  | succ n ih =>
      cases chain with
      | nil => cases hle
      | cons b rest =>
          obtain ⟨hne, hpos⟩ := List.forall_mem_cons.mp hpos
          obtain ⟨htracks, hheight⟩ := h.revertBlock hne
          obtain ⟨hsum, hframe, hread⟩ := ih htracks (Nat.le_of_succ_le_succ hle) hpos
          rw [List.take_succ_cons]
          show ((s.revertBlock b).1.revertBlocks (rest.take n)).currentHeight.toNat + (n + 1) = _ ∧ _
          -- the first rollback erases the snapshot of the tip only
          have herase : ∀ k : UInt64, k.toNat < s.currentHeight.toNat →
              (s.revertBlock b).1.validatorSnapshots.lookup k = s.validatorSnapshots.lookup k := by
            intro k hk
            apply Finmap.lookup_erase_ne
            intro heq
            rw [heq] at hk
            exact absurd hk (lt_irrefl _)
          refine ⟨by omega, ?_, ?_⟩
          · intro k hk
            have hk' : k.toNat ≤ ((s.revertBlock b).1.revertBlocks (rest.take n)).currentHeight.toNat :=
              hk
            exact (hframe k hk').trans (herase k (by omega))
          · intro _
            cases n with
            | zero => rfl
            | succ n =>
                show ((s.revertBlock b).1.revertBlocks (rest.take (n + 1))).activeValidators = _
                rw [hread (Nat.succ_ne_zero n), herase _ (by omega)]
                rfl

theorem RollsBack.currentHeight_eq {n : ℕ} (h : RollsBack D s chain n) :
    (s.revertBlocks (chain.take n)).currentHeight = s.currentHeight - UInt64.ofNat n := by
  obtain ⟨hsum, -, -⟩ := h.start.revertBlocks_validators h.le h.pos
  have hlt : s.currentHeight.toNat < UInt64.size := s.currentHeight.toNat_lt_size
  have hofNat : (UInt64.ofNat n).toNat = n := UInt64.toNat_ofNat_of_lt' (by omega)
  have hle : UInt64.ofNat n ≤ s.currentHeight := by
    rw [UInt64.le_iff_toNat_le, hofNat]
    omega
  apply UInt64.toNat_inj.mp
  rw [UInt64.toNat_sub_of_le _ _ hle, hofNat]
  omega

theorem RollsBack.activeValidators_eq {n : ℕ} (h : RollsBack D s chain n) (hn : n ≠ 0) :
    (s.revertBlocks (chain.take n)).activeValidators = s.snapshotBelow n := by
  obtain ⟨-, -, hread⟩ := h.start.revertBlocks_validators h.le h.pos
  rw [hread hn, h.currentHeight_eq]
  rfl

/-- The snapshot `n` heights below the tip belongs to the block there, and answers for the chain
below that block. -/
theorem Validated.snapshotBelow_cons {n : ℕ} {b' : Block P} {rest : List (Block P)}
    (hv : Validated R s chain) (hrolls : RollsBack D s chain n) (hdrop : chain.drop n = b' :: rest) :
    R rest (s.snapshotBelow n) := by
  have hhistory := hv.history.drop hrolls.pos
  have htracks := hrolls.tracks
  rw [hdrop] at hhistory htracks
  obtain ⟨⟨vs, hvs, hR⟩, -⟩ := hhistory
  have hheight : b'.height = s.currentHeight - UInt64.ofNat n := by
    rw [← hrolls.currentHeight_eq]
    exact UInt64.toNat_inj.mp htracks.linked.2.1
  unfold snapshotBelow
  rw [← hheight, hvs]
  exact hR

/-- Below a chain without a genesis block there is no snapshot. -/
theorem Validated.snapshotBelow_nil {n : ℕ} (hv : Validated R s chain)
    (hrolls : RollsBack D s chain n) (hdrop : chain.drop n = []) : s.snapshotBelow n = [] := by
  have hhistory := hv.history.drop hrolls.pos
  have htracks := hrolls.tracks
  rw [hdrop] at hhistory htracks
  have hheight : (0 : UInt64) = s.currentHeight - UInt64.ofNat n := by
    rw [← hrolls.currentHeight_eq]
    exact (UInt64.toNat_inj.mp htracks.linked.2).symm
  have hnone : s.validatorSnapshots.lookup 0 = none := hhistory
  unfold snapshotBelow
  rw [← hheight, hnone, Option.getD_none]

/-- A rollback keeps the invariant when the snapshot that it restores answers for the chain that is
left. -/
theorem Validated.revertBlocks {n : ℕ} (hv : Validated R s chain)
    (hrolls : RollsBack D s chain n) (hR : n ≠ 0 → R (chain.drop n) (s.snapshotBelow n)) :
    Validated R (s.revertBlocks (chain.take n)) (chain.drop n) := by
  refine ⟨?_, ?_⟩
  · by_cases hn : n = 0
    · subst hn
      exact hv.current
    · rw [hrolls.activeValidators_eq hn]
      exact hR hn
  · obtain ⟨-, hframe, -⟩ := hrolls.start.revertBlocks_validators hrolls.le hrolls.pos
    exact (hv.history.drop hrolls.pos).congr hrolls.tracks.linked hframe

end ChainState

end Haze
