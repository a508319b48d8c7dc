import Haze.Lib.Priority
import Haze.Proposer.Fees

/-!
# What a block takes from the mempool

Three of the queues are served by fee: the best paying items go into the block, and the others wait for
the next one. The fee of an item is a sum over its kernels in `u64`, so the order is that of the fees as
numbers as long as no sum wraps.

The queues of operations hold one item for each key, and every queue is within its cap, after any
sequence of calls (`Orderly`).
-/

namespace Haze

variable {P : Crypto}

open Priority

/-! ## Serving by fee

A queue is sorted by fee when a block is made, and its front is taken. `sort_by` is stable, so that nothing
else decides. -/

/-- The first pays at least as much as the second, unless the sum of the second has wrapped. -/
def PaysMore (tx tx' : Transaction P) : Prop :=
  Proposer.kernelFees [tx'] < 2 ^ 64 → Proposer.kernelFees [tx'] ≤ Proposer.kernelFees [tx]

theorem paysMore_of_txFee_le {tx tx' : Transaction P} (h : txFee tx' ≤ txFee tx) : PaysMore tx tx' := by
  intro hfits
  have htx : (txFee tx).toNat = _ := Proposer.toNat_totalFee tx
  have htx' : (txFee tx').toNat = _ := Proposer.toNat_totalFee tx'
  rw [UInt64.le_iff_toNat_le, htx, htx', Nat.mod_eq_of_lt hfits] at h
  -- a sum that has wrapped is below the fees
  exact h.trans (Nat.mod_le _ _)

/-- Sorted by fee and cut, the queue is split by what its items pay. -/
theorem Queue.split_byFee {α : Type} (payment : α → Transaction P) (cap : ℕ) (queue : List α) :
    Split (fun x y => PaysMore (payment x) (payment y)) cap queue
      ((byFee (fun x => txFee (payment x)) queue).take cap)
      ((byFee (fun x => txFee (payment x)) queue).drop cap) := by
  have : Std.Total fun x y => txFee (payment y) ≤ txFee (payment x) :=
    ⟨fun x y => UInt64.le_total _ _⟩
  have : IsTrans α fun x y => txFee (payment y) ≤ txFee (payment x) :=
    ⟨fun x y z hxy hyz => UInt64.le_trans hyz hxy⟩
  refine (split_insertionSort (fun x y => txFee (payment y) ≤ txFee (payment x)) cap queue).mono ?_
  intro x _ y _ hle
  exact paysMore_of_txFee_le hle

namespace Mempool

variable {m : Mempool P}

/-! ## Queues in order

A queue of operations has no key twice, and all queues stay below their caps. -/

/-- Keys are distinct within each queue of operations, and every queue is within its cap. -/
structure Orderly (m : Mempool P) : Prop where
  txs : m.pendingTxs.length ≤ maxPendingTxs
  nameOps : Tidy RegisterNameOp.name maxPendingNameOps m.pendingNameOps
  transferOps : Tidy TransferNameOp.name maxPendingTransferOps m.pendingTransferOps
  mintOps : Tidy MintAssetOp.assetId maxPendingMintOps m.pendingMintOps
  transferAssetOps :
    Tidy TransferAssetOp.assetId maxPendingTransferAssetOps m.pendingTransferAssetOps
  launchOps :
    Tidy LaunchCollectionOp.collectionId maxPendingLaunchCollectionOps m.pendingLaunchCollectionOps
  validatorOps : Tidy RegisterValidatorOp.commitment maxPendingValidatorOps m.pendingValidatorOps

theorem Orderly.new : Orderly (Mempool.new : Mempool P) :=
  ⟨Nat.zero_le _, Tidy.nil, Tidy.nil, Tidy.nil, Tidy.nil, Tidy.nil, Tidy.nil⟩

/-- An item that is admitted has a key that is not pending. -/
theorem tidy_add {α κ : Type} [BEq κ] [LawfulBEq κ] {key : α → κ} {cap : ℕ} {valid : α → Bool}
    {queue queue' : List α} {x : α} (h : Tidy key cap queue)
    (hadd : Queue.add cap valid (fun y x => key y == key x) queue x = some queue') :
    Tidy key cap queue' := by
  obtain ⟨⟨hroom, -, hclash⟩, rfl⟩ := Queue.add_eq_some.mp hadd
  refine h.concat hroom ?_
  intro y hy hkey
  have hany : (queue.any fun y => key y == key x) = true :=
    List.any_eq_true.mpr ⟨y, hy, beq_iff_eq.mpr hkey⟩
  rw [hclash] at hany
  cases hany

theorem subperm_drop_byFee {α : Type} (fee : α → UInt64) (queue : List α) (n : ℕ) :
    ((Queue.byFee fee queue).drop n).Subperm queue :=
  (List.drop_sublist n _).subperm.trans (Queue.byFee_perm fee queue).subperm

/-- No call brings a queue out of order. -/
theorem Orderly.call (h : m.Orderly) (serializedSize : Transaction P → Option UInt64)
    (c : PoolCall P) : (m.call serializedSize c).Orderly := by
  cases c with
  | addTransaction tx =>
      show ((m.addTransaction serializedSize tx).getD m).Orderly
      cases hadd : m.addTransaction serializedSize tx with
      | none => exact h
      | some m' =>
          obtain ⟨hadm, rfl⟩ := addTransaction_eq_some.mp hadd
          refine { h with txs := ?_ }
          show (m.pendingTxs ++ [tx]).length ≤ maxPendingTxs
          rw [List.length_append, List.length_singleton]
          exact hadm.room
  | addNameOp op =>
      apply getD_map_induct (Q := Orderly) h
      intro queue hq
      exact { h with nameOps := tidy_add h.nameOps hq }
  | addTransferOp op =>
      apply getD_map_induct (Q := Orderly) h
      intro queue hq
      exact { h with transferOps := tidy_add h.transferOps hq }
  | addMintOp op =>
      apply getD_map_induct (Q := Orderly) h
      intro queue hq
      exact { h with mintOps := tidy_add h.mintOps hq }
  | addTransferAssetOp op =>
      apply getD_map_induct (Q := Orderly) h
      intro queue hq
      exact { h with transferAssetOps := tidy_add h.transferAssetOps hq }
  | addLaunchCollectionOp op =>
      apply getD_map_induct (Q := Orderly) h
      intro queue hq
      exact { h with launchOps := tidy_add h.launchOps hq }
  | addValidatorOp op =>
      apply getD_map_induct (Q := Orderly) h
      intro queue hq
      exact { h with validatorOps := tidy_add h.validatorOps hq }
  -- what is taken or dropped leaves a part of the queue, which is in order with it
  | aggregate =>
      show m.aggregate.2.Orderly
      rw [aggregate_snd]
      exact { h with txs := (subperm_drop_byFee _ _ _).length_le.trans h.txs }
  | takeNameOps => exact { h with nameOps := h.nameOps.subperm (subperm_drop_byFee _ _ _) }
  | takeMintOps => exact { h with mintOps := h.mintOps.subperm (subperm_drop_byFee _ _ _) }
  | takeTransferOps =>
      exact { h with transferOps := h.transferOps.subperm (List.drop_sublist _ _).subperm }
  | takeTransferAssetOps =>
      exact { h with transferAssetOps := h.transferAssetOps.subperm (List.drop_sublist _ _).subperm }
  | takeLaunchCollectionOps =>
      exact { h with launchOps := h.launchOps.subperm (List.drop_sublist _ _).subperm }
  | takeValidatorOps =>
      exact { h with validatorOps := h.validatorOps.subperm (List.drop_sublist _ _).subperm }
  | clearSpent => exact { h with txs := (List.length_filter_le _ _).trans h.txs }
  | clearStaleNameOps =>
      exact { h with nameOps := h.nameOps.subperm List.filter_sublist.subperm }
  | clearStaleTransferOps =>
      exact { h with transferOps := h.transferOps.subperm List.filter_sublist.subperm }
  | clearStaleMintOps =>
      exact { h with mintOps := h.mintOps.subperm List.filter_sublist.subperm }
  | clearStaleTransferAssetOps =>
      exact { h with transferAssetOps := h.transferAssetOps.subperm List.filter_sublist.subperm }
  | clearStaleLaunchCollectionOps =>
      exact { h with launchOps := h.launchOps.subperm List.filter_sublist.subperm }
  | clearStaleValidatorOps =>
      exact { h with validatorOps := h.validatorOps.subperm List.filter_sublist.subperm }

theorem orderly_run (serializedSize : Transaction P → Option UInt64) (calls : List (PoolCall P)) :
    (run serializedSize calls).Orderly :=
  run_induct serializedSize Orderly.new (fun _ c h => h.call serializedSize c) calls

/-- **Selection is by fee, and loses nothing.** After any calls, taking transactions, registrations or
mints for a block splits the queue: as many as the block may hold are taken, the others stay, and nothing
that stays pays more than something that was taken. Every queue is in order. -/
theorem selection_by_fee (serializedSize : Transaction P → Option UInt64) (calls : List (PoolCall P)) :
    let m := run serializedSize calls
    (∃ taken rest, Split PaysMore maxTxsPerBlock m.pendingTxs taken rest ∧
      m.aggregate = (if m.pendingTxs.isEmpty then none else some (aggregateAndCutThrough taken),
        { m with pendingTxs := rest })) ∧
    (∃ taken rest, Split (fun op op' => PaysMore op.feePayment op'.feePayment) maxNameOpsPerBlock
        m.pendingNameOps taken rest ∧
      m.takeNameOps = (taken, { m with pendingNameOps := rest })) ∧
    (∃ taken rest, Split (fun op op' => PaysMore op.feePayment op'.feePayment) maxMintOpsPerBlock
        m.pendingMintOps taken rest ∧
      m.takeMintOps = (taken, { m with pendingMintOps := rest })) ∧
    m.Orderly := by
  intro m
  refine ⟨⟨m.selectedTxs, _, Queue.split_byFee id _ _, ?_⟩, ⟨_, _, Queue.split_byFee _ _ _, rfl⟩,
    ⟨_, _, Queue.split_byFee _ _ _, rfl⟩, orderly_run serializedSize calls⟩
  refine Prod.ext ?_ m.aggregate_snd
  unfold aggregate
  split <;> rfl

end Mempool

end Haze
