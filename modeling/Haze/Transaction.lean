import Haze.Crypto
import Mathlib.Tactic.Abel
import Mathlib.Algebra.BigOperators.Group.List.Basic
import Mathlib.Data.UInt

/-!
# Transactions (`core/src/transaction.rs`)

A Mimblewimble transaction is valid when its range proofs and kernel signatures verify and its
commitments balance. The fee sum is a `u64` sum, so `totalFee` wraps as the release build does.
-/

namespace Haze

/-- A `u64` sum is the sum modulo `2 ^ 64`. -/
theorem toNat_sum (xs : List UInt64) : xs.sum.toNat = (xs.map UInt64.toNat).sum % 2 ^ 64 := by
  induction xs with
  | nil => rfl
  | cons x xs ih =>
      rw [List.sum_cons, List.map_cons, List.sum_cons, UInt64.toNat_add, ih, Nat.add_mod_mod]

structure Input (P : Crypto) where
  commitment : Commitment P
  deriving DecidableEq

structure Output (P : Crypto) where
  commitment : Commitment P
  proof : P.RangeProof
  note : List UInt8

structure TxKernel (P : Crypto) where
  excess : Commitment P
  fee : UInt64
  signature : Signature P
  deriving DecidableEq

structure Transaction (P : Crypto) where
  inputs : List (Input P)
  outputs : List (Output P)
  kernels : List (TxKernel P)

namespace Transaction

variable {P : Crypto}

/-- The commitments a transaction consumes. -/
def spent (tx : Transaction P) : List (Commitment P) :=
  tx.inputs.map Input.commitment

/-- The commitments a transaction creates. -/
def created (tx : Transaction P) : List (Commitment P) :=
  tx.outputs.map Output.commitment

/-- The excesses of its kernels. -/
def excesses (tx : Transaction P) : List (Commitment P) :=
  tx.kernels.map TxKernel.excess

/-- Sum of commitments as curve points, from `RistrettoPoint::default()`. -/
def sumPoints (cs : List (Commitment P)) : P.Point :=
  (cs.map Commitment.asPoint).sum

/-- `kernels.iter().map(|k| k.fee).sum()`. -/
def totalFee (tx : Transaction P) : UInt64 :=
  (tx.kernels.map TxKernel.fee).sum

/-- The kernel signs its own fee. -/
def kernelSigned (k : TxKernel P) : Bool :=
  k.signature.verify (toLeBytes 8 k.fee.toNat) k.excess

/-- `Transaction::validate_with_reward`: range proofs, kernel signatures, and
`sum(inputs) - sum(outputs) - fee*H + reward*H = sum(kernel_excess)`, where the fee only counts when
there is no reward. -/
def validateWithReward (tx : Transaction P) (reward : UInt64) : Bool :=
  (tx.outputs.all fun o => verifyRangeProof o.proof o.commitment) &&
  (tx.kernels.all kernelSigned) &&
  let fee : UInt64 := if reward = 0 then tx.totalFee else 0
  let feeCommitment := (Commitment.new fee (0 : P.Scalar)).asPoint
  let rewardCommitment := (Commitment.new reward (0 : P.Scalar)).asPoint
  decide (sumPoints tx.spent - sumPoints tx.created - feeCommitment + rewardCommitment =
    sumPoints tx.excesses)

/-- `Transaction::validate`. -/
def validate (tx : Transaction P) : Bool :=
  tx.validateWithReward 0

/-- A kernel signed with the blinding factor of its excess is signed. -/
theorem kernelSigned_sign (x nonce : P.Scalar) (fee : UInt64) :
    kernelSigned ⟨Commitment.new 0 x, fee, Signature.sign (toLeBytes 8 fee.toNat) x nonce⟩ = true := by
  have hkey : Commitment.new (P := P) 0 x = ⟨x • P.BBlinding⟩ := by simp [Commitment.new]
  rw [kernelSigned, hkey]
  exact Signature.verify_sign _ _ _

@[simp] theorem sumPoints_nil : sumPoints ([] : List (Commitment P)) = 0 := rfl

@[simp] theorem sumPoints_append (cs ds : List (Commitment P)) :
    sumPoints (cs ++ ds) = sumPoints cs + sumPoints ds := by
  simp [sumPoints]

/-- What an accepted transaction satisfies. -/
theorem validateWithReward_iff {tx : Transaction P} {reward : UInt64} :
    tx.validateWithReward reward = true ↔
      (∀ o ∈ tx.outputs, verifyRangeProof o.proof o.commitment = true) ∧
      (∀ k ∈ tx.kernels, kernelSigned k = true) ∧
      sumPoints tx.spent - sumPoints tx.created
          - ((if reward = 0 then tx.totalFee else 0 : UInt64).toNat : P.Scalar) • P.B
          + (reward.toNat : P.Scalar) • P.B = sumPoints tx.excesses := by
  simp only [validateWithReward, Bool.and_eq_true, List.all_eq_true, decide_eq_true_eq,
    Commitment.new_zero_blinding, and_assoc]

/-- A mined body mints its reward and pays no fee. -/
theorem balance_of_reward {tx : Transaction P} {reward : UInt64} (hr : reward ≠ 0)
    (h : tx.validateWithReward reward = true) :
    sumPoints tx.spent + (reward.toNat : P.Scalar) • P.B =
      sumPoints tx.created + sumPoints tx.excesses := by
  obtain ⟨-, -, hb⟩ := validateWithReward_iff.mp h
  rw [if_neg hr] at hb
  simp only [UInt64.toNat_zero, Nat.cast_zero, zero_smul, sub_zero] at hb
  rw [← hb]
  abel

/-- A standalone payment mints nothing and burns its fee. -/
theorem balance_of_fee {tx : Transaction P} (h : tx.validate = true) :
    sumPoints tx.spent =
      sumPoints tx.created + sumPoints tx.excesses + (tx.totalFee.toNat : P.Scalar) • P.B := by
  obtain ⟨-, -, hb⟩ := validateWithReward_iff.mp h
  simp only [if_true, UInt64.toNat_zero, Nat.cast_zero, zero_smul, add_zero] at hb
  rw [← hb]
  abel

end Transaction

end Haze
