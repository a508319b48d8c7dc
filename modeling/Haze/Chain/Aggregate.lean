import Haze.Chain.Supply
import Haze.Chain.Undo
import Mathlib.Algebra.Order.BigOperators.Group.List

/-!
# Aggregate validation and the conservation of value

`aggregate_validate` checks a pruned chain by one equation: coins plus kernel excesses make up what was
issued less what registrations burned. The equation is the sum of two kinds of balance — a body mints
its reward and pays no fee, a registration pays a fee and mints nothing — over every block of the run.
-/

namespace Haze

open Transaction

variable {P : Crypto}

/-! ## The check (`chain.rs`)

A new node checks a set of coins against the kernels it has seen: the coins and the excesses together have
to come to what the blocks have issued, less the registry fees, which nobody gets. -/

/-- `u64::saturating_sub`. -/
def saturatingSub (a b : UInt64) : UInt64 :=
  if a < b then 0 else a - b

/-- `total_registry_fees_burned`: over every stored block, on the active chain or not. -/
def totalRegistryFeesBurned (blocks : KeyedMap Bytes32 (Block P)) : UInt64 :=
  UInt64.ofNat (∑ hash ∈ blocks.keys, match blocks.lookup hash with
    | some b => ((b.payments.flatMap Transaction.kernels).map fun k => k.fee.toNat).sum
    | none => 0)

def aggregateValidate (utxos : Finset (Commitment P)) (kernels : List (TxKernel P))
    (tipHeight registryFeesBurned : UInt64) : Bool :=
  kernels.all kernelSigned &&
  let sum := ∑ c ∈ utxos, c.asPoint + (kernels.map fun k => k.excess.asPoint).sum
  let totalRewardIssued := genesisTotalMinted + rewardSum tipHeight
  let netIssued := saturatingSub totalRewardIssued registryFeesBurned
  decide (sum = (Commitment.new netIssued (0 : P.Scalar)).asPoint)

/-! ## Amounts

What the operations of a block burn, and what a list of blocks does. -/

/-- The registry fees a block burns. -/
def Block.registryFees (b : Block P) : ℕ :=
  ((b.payments.flatMap Transaction.kernels).map fun k => k.fee.toNat).sum

/-- The registry fees that a list of blocks burns. -/
def feesOf (bs : List (Block P)) : ℕ :=
  (bs.map Block.registryFees).sum

/-! ## The balance of one block

The body of an accepted block is balanced up to its reward, and each payment up to its fee. With the coins
that it consumes and creates the block moves the total by just that. -/

/-- A fee payment burns the fee of its kernel. -/
theorem IsFeePayment.balance {tx : Transaction P} (h : IsFeePayment tx) :
    sumPoints tx.spent = sumPoints tx.created + sumPoints tx.excesses
      + (((tx.kernels.map fun k => k.fee.toNat).sum : ℕ) : P.Scalar) • P.B := by
  obtain ⟨k, hk⟩ := h.oneKernel
  have hfee : tx.totalFee.toNat = (tx.kernels.map fun k => k.fee.toNat).sum := by
    simp [totalFee, hk]
  rw [← hfee]
  exact balance_of_fee h.valid

theorem payments_balance {txs : List (Transaction P)} (h : ∀ tx ∈ txs, IsFeePayment tx) :
    sumPoints (txs.flatMap Transaction.spent) =
      sumPoints (txs.flatMap Transaction.created) + sumPoints (txs.flatMap Transaction.excesses)
      + ((((txs.flatMap Transaction.kernels).map fun k => k.fee.toNat).sum : ℕ) : P.Scalar) • P.B := by
  induction txs with
  | nil => simp
  | cons tx txs ih =>
      obtain ⟨htx, htxs⟩ := List.forall_mem_cons.mp h
      simp only [List.flatMap_cons, sumPoints_append, List.map_append, List.sum_append, Nat.cast_add,
        add_smul]
      rw [htx.balance, ih htxs]
      abel

theorem Block.excesses_eq (b : Block P) :
    b.excesses = b.transactions.flatMap Transaction.excesses := by
  simp only [Block.excesses, Block.kernels, List.map_flatMap]
  rfl

namespace ChainState

variable {s s' : ChainState P} {b : Block P} {c : Candidate P}

/-- What a block consumes and mints is what it creates, records and burns. -/
theorem Accepted.balance (h : Accepted s b c) (hreward : b.reward ≠ 0) :
    sumPoints b.consumed + (b.reward.toNat : P.Scalar) • P.B =
      sumPoints b.created + sumPoints b.excesses + (b.registryFees : P.Scalar) • P.B := by
  have hbody := balance_of_reward hreward h.bodyValid
  have hpay := payments_balance h.payments
  rw [Block.excesses_eq]
  simp only [Block.consumed, Block.created, Block.transactions, List.flatMap_cons, sumPoints_append]
  calc sumPoints b.body.spent + sumPoints (b.payments.flatMap Transaction.spent)
        + (b.reward.toNat : P.Scalar) • P.B
      = (sumPoints b.body.spent + (b.reward.toNat : P.Scalar) • P.B)
        + sumPoints (b.payments.flatMap Transaction.spent) := by abel
    _ = _ := by
      rw [hbody, hpay]
      unfold Block.registryFees
      abel

/-- Coins plus recorded excesses. -/
def total (s : ChainState P) : P.Point :=
  ∑ c ∈ s.utxos, c.asPoint + (s.kernels.map fun k => k.excess.asPoint).sum

theorem moves_ins (hspent : b.bodySpent = b.body.spent) : b.moves.flatMap Move.ins = b.consumed := by
  simp only [Block.moves, Block.consumed, Block.transactions, List.flatMap_cons, List.flatMap_map,
    hspent]
  rfl

theorem moves_outs : b.moves.flatMap Move.outs = b.created := by
  simp only [Block.moves, Block.created, Block.transactions, List.flatMap_cons, List.flatMap_map]
  rfl

/-- **One block's effect on the total**: the reward enters and the registry fees leave. -/
theorem Accepted.total_commitBlock (h : Accepted s b c) (hreward : b.reward ≠ 0)
    (hspent : b.bodySpent = b.body.spent) (hexist : ∀ x ∈ b.consumed, x ∈ s.utxos)
    (hin : b.consumed.Nodup) (hout : b.created.Nodup) (hnew : ∀ x ∈ b.created, x ∉ s.utxos) :
    (s.commitBlock b c).1.total + (b.registryFees : P.Scalar) • P.B =
      s.total + (b.reward.toNat : P.Scalar) • P.B := by
  -- the coins: what is consumed leaves the sum, what is created enters it
  have hsum : ∑ x ∈ (s.commitBlock b c).1.utxos, x.asPoint =
      ∑ x ∈ s.utxos, x.asPoint - sumPoints b.consumed + sumPoints b.created := by
    show ∑ x ∈ Coins.applyAll s.utxos b.moves, x.asPoint = _
    rw [← moves_ins hspent] at hin hexist ⊢
    rw [← moves_outs] at hout hnew ⊢
    exact Coins.sum_applyAll Commitment.asPoint hin hexist hout hnew
  -- the kernels: those of the body and of the payments are added
  have hkernels : ((s.commitBlock b c).1.kernels.map fun k => k.excess.asPoint).sum =
      (s.kernels.map fun k => k.excess.asPoint).sum + sumPoints b.excesses := by
    show ((s.kernels ++ b.kernels).map _).sum = _
    simp only [List.map_append, List.sum_append, sumPoints, Block.excesses, List.map_map,
      Function.comp_def]
  have hbal := h.balance hreward
  -- the block itself: body and payments balance with the reward and the registry fees
  have hcreated : sumPoints b.created + sumPoints b.excesses =
      sumPoints b.consumed + (b.reward.toNat : P.Scalar) • P.B
        - (b.registryFees : P.Scalar) • P.B := by
    rw [hbal]
    abel
  unfold total
  rw [hsum, hkernels]
  calc ∑ x ∈ s.utxos, x.asPoint - sumPoints b.consumed + sumPoints b.created
        + ((s.kernels.map fun k => k.excess.asPoint).sum + sumPoints b.excesses)
        + (b.registryFees : P.Scalar) • P.B
      = ∑ x ∈ s.utxos, x.asPoint + (s.kernels.map fun k => k.excess.asPoint).sum
        - sumPoints b.consumed + (sumPoints b.created + sumPoints b.excesses)
        + (b.registryFees : P.Scalar) • P.B := by abel
    _ = _ := by
      rw [hcreated]
      abel

/-- Every kernel of an accepted block is signed. -/
theorem Accepted.kernels_signed (h : Accepted s b c) : ∀ k ∈ b.kernels, kernelSigned k = true := by
  intro k hk
  obtain ⟨tx, htx, hk⟩ := List.mem_flatMap.mp hk
  rcases List.mem_cons.mp htx with rfl | htx
  · exact (validateWithReward_iff.mp h.bodyValid).2.1 k hk
  · exact (validateWithReward_iff.mp (h.payments tx htx).valid).2.1 k hk

/-! ## Whole runs

The rule for runs of blocks that neither consume nor create a coin twice. A block for which no reward is
left is not one of them. -/

/-- Runs of `apply_linear_block` from a fresh node, genesis first, in which no block repeats an input
or an output, re-creates a coin, or comes after the rewards have run out. The list has the blocks after
genesis, newest first. -/
inductive CleanRun (g : Block P) : ChainState P → List (Block P) → Prop
  | genesis {s : ChainState P} {δ : AppliedDelta P} :
      g.created.Nodup → ChainState.new.applyLinearBlock g = some (s, δ) → CleanRun g s []
  | apply {s s' : ChainState P} {bs : List (Block P)} {b : Block P} {δ : AppliedDelta P} :
      CleanRun g s bs → blockRewardAt b.height > 0 → b.consumed.Nodup → b.created.Nodup →
        (∀ x ∈ b.created, x ∉ s.utxos) → s.applyLinearBlock b = some (s', δ) →
          CleanRun g s' (b :: bs)

/-- What a clean run maintains. -/
structure Conserved (s : ChainState P) (fees : ℕ) : Prop where
  /-- Another genesis block is not accepted. -/
  started : s.currentHeight ≠ 0 ∨ s.lastBlockHash ≠ zeroHash
  signed : ∀ k ∈ s.kernels, kernelSigned k = true
  total : s.total + (fees : P.Scalar) • P.B = (issued s.currentHeight.toNat : P.Scalar) • P.B

theorem Conserved.genesis {g : Block P} (hheight : g.height = 0) (hconsumed : g.consumed = [])
    (hfees : g.registryFees = 0) (hhash : g.hash ≠ zeroHash) (hout : g.created.Nodup)
    (h : Accepted ChainState.new g c) : Conserved (ChainState.new.commitBlock g c).1 0 := by
  have hcur : (ChainState.new.commitBlock g c).1.currentHeight.toNat = 0 := by
    show g.height.toNat = 0
    rw [hheight]
    rfl
  refine ⟨Or.inr hhash, h.kernels_signed, ?_⟩
  have hreward : g.reward = genesisTotalMinted := if_pos hheight
  have hspent : g.bodySpent = g.body.spent := by
    rw [Block.consumed_eq] at hconsumed
    rw [(List.append_eq_nil_iff.mp hconsumed).1]
    exact if_pos hheight
  have htotal := h.total_commitBlock (by rw [hreward]; decide) hspent (by simp [hconsumed])
    (by simp [hconsumed]) hout (fun x _ => Finset.notMem_empty x)
  have hnew : (ChainState.new : ChainState P).total = 0 := by
    simp [ChainState.total, ChainState.new]
  rw [hfees, hreward, hnew, zero_add] at htotal
  rw [hcur, htotal]
  rfl

theorem Conserved.commitBlock {fees : ℕ} (hs : Conserved s fees) (h : Accepted s b c)
    (hreward : blockRewardAt b.height > 0) (hin : b.consumed.Nodup) (hout : b.created.Nodup)
    (hnew : ∀ x ∈ b.created, x ∉ s.utxos) :
    Conserved (s.commitBlock b c).1 (b.registryFees + fees) := by
  -- with a chain to stand on, the block is no genesis block
  have hpos : b.height ≠ 0 := by
    intro h0
    rcases h.connected with ⟨hh, -⟩ | ⟨-, hcur, hlast⟩
    · rw [h0] at hh
      simp at hh
    · exact hs.started.elim (absurd hcur) (absurd hlast)
  have hrew : b.reward = blockRewardAt b.height := if_neg hpos
  refine ⟨Or.inl hpos, ?_, ?_⟩
  · intro k hk
    rcases List.mem_append.mp hk with hk | hk
    · exact hs.signed k hk
    · exact h.kernels_signed k hk
  · have hne : b.reward ≠ 0 := by
      rw [hrew]
      exact UInt64.pos_iff_ne_zero.mp hreward
    have hstep := h.total_commitBlock hne (if_neg hpos) (h.consumed_mem hpos) hin hout hnew
    have hheight : b.height.toNat = s.currentHeight.toNat + 1 := (h.follows hpos).1
    have hissued : issued b.height.toNat = issued s.currentHeight.toNat + b.reward.toNat := by
      rw [hheight, issued_succ, ← hheight, UInt64.ofNat_toNat, hrew]
    show _ = (issued b.height.toNat : P.Scalar) • P.B
    rw [hissued, Nat.cast_add, Nat.cast_add, add_smul, add_smul, ← hs.total, ← add_assoc, hstep]
    abel

theorem CleanRun.conserved {g : Block P} {bs : List (Block P)} (hheight : g.height = 0)
    (hconsumed : g.consumed = []) (hfees : g.registryFees = 0) (hhash : g.hash ≠ zeroHash)
    (h : CleanRun g s bs) : Conserved s (feesOf bs) := by
  induction h with
  | genesis hout happly =>
      obtain ⟨c, hacc, rfl⟩ := applyLinearBlock_eq_some happly
      exact Conserved.genesis hheight hconsumed hfees hhash hout hacc
  | apply _ hreward hin hout hnew happly ih =>
      obtain ⟨c, hacc, rfl⟩ := applyLinearBlock_eq_some happly
      exact ih.commitBlock hacc hreward hin hout hnew

theorem toNat_saturatingSub (a b : UInt64) : (saturatingSub a b).toNat = a.toNat - b.toNat := by
  unfold saturatingSub
  split
  next hlt =>
    rw [UInt64.lt_iff_toNat_lt] at hlt
    show 0 = _
    omega
  next hge => exact UInt64.toNat_sub_of_le _ _ (UInt64.not_lt.mp hge)

/-- **Conservation of value.** After any clean run, coins and kernel excesses add up to what was issued
less the registry fees, and the aggregate check accepts the state. -/
theorem value_conserved {validatorProof : P.RangeProof} {nonce : P.Scalar}
    {locked : List (Output P × TxKernel P)} {bs : List (Block P)}
    (hhash : (genesisBlock validatorProof nonce locked).hash ≠ zeroHash)
    (h : CleanRun (genesisBlock validatorProof nonce locked) s bs) :
    ∑ c ∈ s.utxos, c.asPoint + (s.kernels.map fun k => k.excess.asPoint).sum =
        (((issued s.currentHeight.toNat : ℤ) - (feesOf bs : ℤ) : ℤ) : P.Scalar) • P.B ∧
      (feesOf bs < 2 ^ 64 → feesOf bs ≤ issued s.currentHeight.toNat →
        aggregateValidate s.utxos s.kernels s.currentHeight (UInt64.ofNat (feesOf bs)) = true) := by
  have hc := h.conserved rfl rfl rfl hhash
  have hsum : s.total =
      (((issued s.currentHeight.toNat : ℤ) - (feesOf bs : ℤ) : ℤ) : P.Scalar) • P.B := by
    rw [Int.cast_sub, Int.cast_natCast, Int.cast_natCast, sub_smul, ← hc.total]
    abel
  refine ⟨hsum, ?_⟩
  -- the sum of the fees fits, so the check computes with the number itself
  intro hfit hle
  have hfees : (UInt64.ofNat (feesOf bs)).toNat = feesOf bs := UInt64.toNat_ofNat_of_lt' hfit
  have hissued := toNat_totalRewardIssued s.currentHeight
  have hnet : (saturatingSub (genesisTotalMinted + rewardSum s.currentHeight)
      (UInt64.ofNat (feesOf bs))).toNat = issued s.currentHeight.toNat - feesOf bs := by
    rw [toNat_saturatingSub, hfees, hissued]
  simp only [aggregateValidate, Bool.and_eq_true, List.all_eq_true, decide_eq_true_eq,
    Commitment.new_zero_blinding]
  refine ⟨hc.signed, ?_⟩
  show s.total = _
  rw [hsum, hnet, Nat.cast_sub hle, Int.cast_sub, Int.cast_natCast, Int.cast_natCast]

end ChainState

namespace Devnet

open ChainState

theorem nameBlock_conserves_value :
    ∃ s, CleanRun genesis s [nameBlock] ∧
      aggregateValidate s.utxos s.kernels s.currentHeight (UInt64.ofNat (feesOf [nameBlock])) = true := by
  have hgenesis : (ChainState.new.applyLinearBlock genesis).isSome = true ∧
      genesis.created.Nodup ∧ genesis.hash ≠ zeroHash := by
    decide +kernel
  -- the block has a registration that pays five
  have hblock : ((linear [genesis]).applyLinearBlock nameBlock).isSome = true ∧
      (∀ x ∈ nameBlock.created, x ∉ (linear [genesis]).utxos) ∧
      blockRewardAt nameBlock.height > 0 ∧ nameBlock.consumed.Nodup ∧ nameBlock.created.Nodup ∧
      nameBlock.height.toNat = 1 ∧ feesOf [nameBlock] < 2 ^ 64 ∧ feesOf [nameBlock] ≤ issued 1 := by
    decide +kernel
  obtain ⟨happly, hout, hhash⟩ := hgenesis
  obtain ⟨hname, hnew, hreward, hspent, hcreated, hone, hfit, hle⟩ := hblock
  obtain ⟨⟨s₀, δ₀⟩, h₀⟩ := Option.isSome_iff_exists.mp happly
  have hlinear : linear [genesis] = s₀ := by
    simp only [linear, applyAll, h₀, Option.bind_eq_bind, Option.bind_some, Option.pure_def,
      Option.map_some, Option.getD_some]
  rw [hlinear] at hnew hname
  obtain ⟨⟨s₁, δ₁⟩, h₁⟩ := Option.isSome_iff_exists.mp hname
  have hrun : CleanRun genesis s₁ [nameBlock] :=
    .apply (.genesis hout h₀) hreward hspent hcreated hnew h₁
  obtain ⟨-, haggregate⟩ := value_conserved hhash hrun
  have hheight : s₁.currentHeight.toNat = 1 := by
    obtain ⟨c, -, rfl⟩ := applyLinearBlock_eq_some h₁
    exact hone
  refine ⟨s₁, hrun, haggregate hfit ?_⟩
  rw [hheight]
  exact hle

end Devnet

end Haze
