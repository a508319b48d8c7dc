import Haze.Lib.Cancel
import Haze.Transaction

/-!
# Cut-through (`core/src/cut_through.rs`)

Several transactions are put together into one, and an output that another of them spends is dropped
with the input that spends it. The source marks outputs as consumed and skips the marked ones; taking
the output out of the list has the same effect.
-/

namespace Haze

variable {P : Crypto}

/-- `aggregate_and_cut_through`. -/
def aggregateAndCutThrough (txs : List (Transaction P)) : Transaction P :=
  let allInputs := txs.flatMap Transaction.inputs
  let allOutputs := txs.flatMap Transaction.outputs
  let cut := Cancel.cancel Input.commitment Output.commitment allInputs allOutputs
  { inputs := cut.1
    outputs := cut.2
    kernels := txs.flatMap Transaction.kernels }

namespace CutThrough

variable (txs : List (Transaction P))

theorem cancelled :
    Cancel.Cancelled Input.commitment Output.commitment (txs.flatMap Transaction.inputs)
      (txs.flatMap Transaction.outputs)
      ((aggregateAndCutThrough txs).inputs, (aggregateAndCutThrough txs).outputs) :=
  Cancel.cancelled_cancel _ _

theorem spent_flatMap :
    (txs.flatMap Transaction.inputs).map Input.commitment = txs.flatMap Transaction.spent :=
  List.map_flatMap

theorem created_flatMap :
    (txs.flatMap Transaction.outputs).map Output.commitment = txs.flatMap Transaction.created :=
  List.map_flatMap

/-- No input is added or repeated: what is spent is among what the transactions spend. -/
theorem spent_sublist :
    (aggregateAndCutThrough txs).spent.Sublist (txs.flatMap Transaction.spent) := by
  rw [← spent_flatMap]
  exact (cancelled txs).left.map _

/-- An output that none of the transactions spends is left. -/
theorem mem_outputs_of_unspent {o : Output P} (ho : o ∈ txs.flatMap Transaction.outputs)
    (hunspent : o.commitment ∉ txs.flatMap Transaction.spent) : o ∈ (aggregateAndCutThrough txs).outputs := by
  rw [← spent_flatMap] at hunspent
  exact Cancel.mem_cancel_of_notMem ho hunspent

/-- An input is left exactly when its commitment is spent more often than it is created. -/
theorem mem_spent_iff {c : Commitment P} :
    c ∈ (aggregateAndCutThrough txs).spent ↔
      (txs.flatMap Transaction.created).count c < (txs.flatMap Transaction.spent).count c := by
  rw [← spent_flatMap, ← created_flatMap]
  exact (cancelled txs).mem_left_iff

theorem excesses_eq : (aggregateAndCutThrough txs).excesses = txs.flatMap Transaction.excesses :=
  List.map_flatMap

/-- Cutting through moves neither the inputs' sum nor the outputs' sum against the other. -/
theorem sumPoints_sub :
    Transaction.sumPoints (aggregateAndCutThrough txs).spent
        - Transaction.sumPoints (aggregateAndCutThrough txs).created =
      Transaction.sumPoints (txs.flatMap Transaction.spent)
        - Transaction.sumPoints (txs.flatMap Transaction.created) := by
  rw [← spent_flatMap, ← created_flatMap]
  exact (cancelled txs).sum_sub Commitment.asPoint

end CutThrough

end Haze
