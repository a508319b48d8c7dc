import Haze.Proposer.Body

/-!
# What an aggregate keeps, and when fee sums are exact

Cutting through takes out pairs, so what is left of a commitment is what one side has more of it than
the other (`cut_through_law`). The balance is kept, and with it validity, as long as the fees add up
below `2 ^ 64`.

Fees are summed in `u64` at three places: by `validate_with_reward`, by the mempool's `tx_fee` and by
the proposer for its coinbase. None of the sums is checked, so a sender who splits `2 ^ 64` over two
kernels has a valid transaction whose fees have wrapped (`wrapping_wraps`); where they have not is
`fee_sums_exact_iff`.
-/

namespace Haze

variable {P : Crypto}

namespace CutThrough

open Transaction

theorem count_spent (txs : List (Transaction P)) (c : Commitment P) :
    (aggregateAndCutThrough txs).spent.count c =
      (txs.flatMap spent).count c - (txs.flatMap created).count c := by
  rw [← spent_flatMap, ← created_flatMap]
  exact ((cancelled txs).count_eq c).1

theorem count_created (txs : List (Transaction P)) (c : Commitment P) :
    (aggregateAndCutThrough txs).created.count c =
      (txs.flatMap created).count c - (txs.flatMap spent).count c := by
  rw [← spent_flatMap, ← created_flatMap]
  exact ((cancelled txs).count_eq c).2

/-- The counts on both sides do not depend on the order, and they decide what is left. -/
theorem aggregate_perm {txs txs' : List (Transaction P)} (h : txs.Perm txs') :
    (aggregateAndCutThrough txs).spent.Perm (aggregateAndCutThrough txs').spent ∧
      (aggregateAndCutThrough txs).created.Perm (aggregateAndCutThrough txs').created := by
  have hspent : (txs.flatMap spent).Perm (txs'.flatMap spent) := h.flatMap_right spent
  have hcreated : (txs.flatMap created).Perm (txs'.flatMap created) := h.flatMap_right created
  constructor
  · rw [List.perm_iff_count]
    intro c
    rw [count_spent, count_spent, hspent.count_eq, hcreated.count_eq]
  · rw [List.perm_iff_count]
    intro c
    rw [count_created, count_created, hspent.count_eq, hcreated.count_eq]

/-- An aggregate of valid transactions is valid while the fees of all kernels fit. -/
theorem validate_aggregate {txs : List (Transaction P)} (h : ∀ tx ∈ txs, tx.validate = true)
    (hfit : Proposer.kernelFees txs < 2 ^ 64) : (aggregateAndCutThrough txs).validate = true := by
  refine validateWithReward_iff.mpr ⟨Proposer.outputs_verify h, Proposer.kernels_signed h, ?_⟩
  have hfee : (aggregateAndCutThrough txs).totalFee.toNat = Proposer.feeTotal txs := by
    rw [Proposer.toNat_totalFee_aggregate, Proposer.feeTotal_eq hfit, Nat.mod_eq_of_lt hfit]
  rw [if_pos rfl, hfee, sumPoints_sub, excesses_eq, Proposer.sumPoints_spent h]
  simp only [UInt64.toNat_zero, Nat.cast_zero, zero_smul]
  abel

/-- **The cut-through law.** -/
theorem cut_through_law (txs : List (Transaction P)) :
    (∀ c, (aggregateAndCutThrough txs).spent.count c =
        (txs.flatMap spent).count c - (txs.flatMap created).count c ∧
      (aggregateAndCutThrough txs).created.count c =
        (txs.flatMap created).count c - (txs.flatMap spent).count c) ∧
    (aggregateAndCutThrough txs).kernels = txs.flatMap kernels ∧
    (∀ txs', txs.Perm txs' →
      (aggregateAndCutThrough txs).spent.Perm (aggregateAndCutThrough txs').spent ∧
        (aggregateAndCutThrough txs).created.Perm (aggregateAndCutThrough txs').created) ∧
    sumPoints (aggregateAndCutThrough txs).spent - sumPoints (aggregateAndCutThrough txs).created =
      sumPoints (txs.flatMap spent) - sumPoints (txs.flatMap created) ∧
    ((∀ tx ∈ txs, tx.validate = true) → Proposer.kernelFees txs < 2 ^ 64 →
      (aggregateAndCutThrough txs).validate = true) :=
  ⟨fun c => ⟨count_spent txs c, count_created txs c⟩, rfl, fun _ => aggregate_perm,
    sumPoints_sub txs, validate_aggregate⟩

end CutThrough

/-! ## Fee sums

Fees are added up in three places: by the validation of a transaction, by the ranking of the mempool and by
the coinbase. Each of the sums wraps where its numbers do not fit. -/

namespace Proposer

open Transaction

/-- The sums over the kernels of one transaction are those of the numbers, and the transaction
burns that many units. -/
structure FeesExact (tx : Transaction P) : Prop where
  balance : sumPoints tx.spent - sumPoints tx.created - sumPoints tx.excesses =
    (kernelFees [tx] : P.Scalar) • P.B
  validated : tx.totalFee.toNat = kernelFees [tx]
  ranked : (txFee tx).toNat = kernelFees [tx]

/-- The proposer's sums over what it takes from the mempool are those of the numbers. -/
structure CoinbaseExact (m : Mempool P) (height : UInt64) : Prop where
  fees : (drain m).1.tx.totalFee.toNat = kernelFees m.selectedTxs
  value : (coinbaseValue height (drain m).1.tx).toNat =
    (blockRewardAt height).toNat + kernelFees m.selectedTxs

theorem toNat_totalFee (tx : Transaction P) : tx.totalFee.toNat = kernelFees [tx] % 2 ^ 64 := by
  rw [totalFee, toNat_sum, List.map_map]
  simp [kernelFees, Function.comp_def]

theorem kernelFees_flatMap (txs : List (Transaction P)) :
    kernelFees [aggregateAndCutThrough txs] = kernelFees txs := by
  simp [kernelFees, aggregateAndCutThrough]

theorem feesExact_iff {tx : Transaction P} (hvalid : tx.validate = true) :
    FeesExact tx ↔ kernelFees [tx] < 2 ^ 64 := by
  have hfee := toNat_totalFee tx
  constructor
  · intro h
    rw [← h.validated]
    exact tx.totalFee.toNat_lt
  · intro hfit
    rw [Nat.mod_eq_of_lt hfit] at hfee
    refine ⟨?_, hfee, hfee⟩
    rw [balance_of_fee hvalid, hfee]
    abel

theorem coinbaseExact_iff (m : Mempool P) (height : UInt64) :
    CoinbaseExact m height ↔
      (blockRewardAt height).toNat + kernelFees m.selectedTxs < 2 ^ 64 := by
  have hfee : (drain m).1.tx.totalFee.toNat = kernelFees m.selectedTxs % 2 ^ 64 := by
    rw [drain_tx, toNat_totalFee, kernelFees_flatMap]
  have hvalue : (coinbaseValue height (drain m).1.tx).toNat =
      ((blockRewardAt height).toNat + kernelFees m.selectedTxs) % 2 ^ 64 := by
    show (blockRewardAt height + (drain m).1.tx.totalFee).toNat = _
    rw [UInt64.toNat_add, hfee, Nat.add_mod_mod]
  constructor
  · intro h
    rw [← h.value]
    exact UInt64.toNat_lt _
  · intro hfit
    rw [Nat.mod_eq_of_lt hfit] at hvalue
    rw [Nat.mod_eq_of_lt (by omega)] at hfee
    exact ⟨hfee, hvalue⟩

/-- **Fee sums are exact** for a valid transaction, and for the proposer that takes from a mempool,
if and only if the fees fit in a `u64`. -/
theorem fee_sums_exact_iff {tx : Transaction P} (hvalid : tx.validate = true) (m : Mempool P)
    (height : UInt64) :
    (FeesExact tx ↔ kernelFees [tx] < 2 ^ 64) ∧
      (CoinbaseExact m height ↔
        (blockRewardAt height).toNat + kernelFees m.selectedTxs < 2 ^ 64) :=
  ⟨feesExact_iff hvalid, coinbaseExact_iff m height⟩

end Proposer

namespace Devnet

open Proposer

/-- A payment of 995 whose two kernels carry fees of `2 ^ 63` and `2 ^ 63 + 5`. -/
def wrapping : Transaction crypto :=
  ⟨[⟨Commitment.new (P := crypto) 1000 (11 : BitVec 256)⟩], [output 995 12],
    [kernel 20 9223372036854775808, kernel (11 - 12 - 20) 9223372036854775813]⟩

theorem payment_fees_exact :
    FeesExact (payment 1000 11 12 5) ∧
      CoinbaseExact (Mempool.run serializedSize [.addTransaction (payment 1000 11 12 5)]) 1 := by
  have hfit : (payment 1000 11 12 5).validate = true ∧ kernelFees [payment 1000 11 12 5] < 2 ^ 64 ∧
      (blockRewardAt 1).toNat + kernelFees (Mempool.run serializedSize
        [.addTransaction (payment 1000 11 12 5)]).selectedTxs < 2 ^ 64 := by
    decide +kernel
  obtain ⟨hvalid, hfees, hcoinbase⟩ := hfit
  have hexact := fee_sums_exact_iff hvalid
    (Mempool.run serializedSize [.addTransaction (payment 1000 11 12 5)]) 1
  exact ⟨hexact.1.mpr hfees, hexact.2.mpr hcoinbase⟩

/-- The transaction is valid and admitted; it burns 5 units, where its kernels say `2 ^ 64 + 5`, and the
proposer that takes it pays itself 5. -/
theorem wrapping_wraps :
    wrapping.validate = true ∧
      (Mempool.run serializedSize [.addTransaction wrapping]).selectedTxs.length = 1 ∧
      ¬ FeesExact wrapping ∧
      ¬ CoinbaseExact (Mempool.run serializedSize [.addTransaction wrapping]) 1 := by
  have hrun : wrapping.validate = true ∧
      (Mempool.run serializedSize [.addTransaction wrapping]).selectedTxs.length = 1 ∧
      Transaction.sumPoints wrapping.spent - Transaction.sumPoints wrapping.created
          - Transaction.sumPoints wrapping.excesses ≠
        ((kernelFees [wrapping] : ℕ) : crypto.Scalar) • crypto.B ∧
      (drain (Mempool.run serializedSize [.addTransaction wrapping])).1.tx.totalFee.toNat ≠
        kernelFees (Mempool.run serializedSize [.addTransaction wrapping]).selectedTxs := by
    decide +kernel
  obtain ⟨hvalid, hadmitted, hbalance, hfees⟩ := hrun
  exact ⟨hvalid, hadmitted, fun h => hbalance h.balance, fun h => hfees h.fees⟩

end Devnet

end Haze
