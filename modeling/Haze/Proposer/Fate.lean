import Haze.Proposer.Filters
import Haze.Proposer.Body

/-!
# What becomes of the items a round takes

A round drains seven queues before it looks at anything. What a filter skips is dropped with the
drained queue, and so is everything the block carries when the chain rejects it: no exit of the loop
gives anything back. Each item that was pending is still pending, or in the block that was assembled,
or it was skipped — and that does not depend on what the chain makes of the block.
-/

namespace Haze

open Checked

variable {P : Crypto}

namespace Proposer

section Queues

variable {α σ : Type} {sel : σ → α → σ} {keeps : σ → α → Bool} {kept : σ → List α} {i : σ}

/-- A loop over `candidates` met `x` in a state in which it does not keep it. -/
def Skipped (keeps : σ → α → Bool) (after : List α → σ) (candidates : List α) (x : α) : Prop :=
  ∃ done rest, candidates = done ++ x :: rest ∧ keeps (after done) x = false

/-- A queue before a round is what stays in it, what went into the block and what was skipped. -/
def QueueFate (before after inBlock : List α) (skipped : α → Prop) : Prop :=
  ∃ lost, before.Perm (after ++ (inBlock ++ lost)) ∧ ∀ x ∈ lost, skipped x

-- `sorted` is the queue as it is drained: in its own order, or by fee
theorem queueFate_of_selects (h : Selects sel keeps kept) (hinit : kept i = [])
    {before sorted : List α} (hsorted : sorted.Perm before) (n : ℕ) :
    QueueFate before (sorted.drop n) (kept ((sorted.take n).foldl sel i))
      (Skipped keeps (fun done => done.foldl sel i) (sorted.take n)) := by
  obtain ⟨lost, hperm, hlost⟩ := h.perm_kept hinit (sorted.take n)
  refine ⟨lost, ?_, hlost⟩
  have hsplit : (sorted.drop n ++ sorted.take n).Perm before := by
    refine List.perm_append_comm.trans ?_
    rwa [List.take_append_drop]
  exact hsplit.symm.trans (hperm.append_left _)

end Queues

variable (e : Env P) (s : ChainState P) (m : Mempool P)

/-- The seven queues of `m` after a round that left `m'` and assembled `b`. -/
structure Fates (m' : Mempool P) (b : Block P) : Prop where
  txs : m.pendingTxs.Perm (m'.pendingTxs ++ m.selectedTxs)
  /-- The body has the kernels of all that was selected, and one for the coinbase. -/
  kernels : ∃ k, b.body.kernels = m.selectedTxs.flatMap Transaction.kernels ++ [k]
  nameOps : QueueFate m.pendingNameOps m'.pendingNameOps b.nameOps
    (Skipped (keepsNameOp s) (selectNameOps s (drain m).1.tx) (drain m).1.nameOps)
  transferOps : QueueFate m.pendingTransferOps m'.pendingTransferOps b.transferOps
    (Skipped (fun acc op => (keepsTransferOp s acc op).isSome)
      (selectTransferOps s (keptNames s (drain m).1)) (drain m).1.transferOps)
  launchOps : QueueFate m.pendingLaunchCollectionOps m'.pendingLaunchCollectionOps
    b.launchCollectionOps (Skipped keepsLaunchOp (selectLaunchOps s) (drain m).1.launchOps)
  mintOps : QueueFate m.pendingMintOps m'.pendingMintOps b.mintOps
    (Skipped (fun acc op => (keepsMintOp e s (drain m).1.tx
      (selectLaunchOps s (drain m).1.launchOps).registry acc op).isSome)
      (mintsAfter e s (drain m).1) (drain m).1.mintOps)
  transferAssetOps : QueueFate m.pendingTransferAssetOps m'.pendingTransferAssetOps
    b.transferAssetOps
    (Skipped (fun acc op => (keepsTransferAssetOp s
      (candidateKernelExcesses (drain m).1.tx b.mintOps b.nameOps)
      (selectLaunchOps s (drain m).1.launchOps).registry acc op).isSome)
      (selectTransferAssetOps s (candidateKernelExcesses (drain m).1.tx b.mintOps b.nameOps)
        (selectLaunchOps s (drain m).1.launchOps).registry
        (mintsAfter e s (drain m).1 (drain m).1.mintOps)) (drain m).1.transferAssetOps)
  validatorOps : QueueFate m.pendingValidatorOps m'.pendingValidatorOps b.validatorOps
    (Skipped (fun acc op => (tryRegisterValidator acc.validators s.utxos op).isSome)
      (selectValidatorOps s) (drain m).1.validatorOps)

theorem fates_assembleBlock (validator : Validator P) :
    Fates e s m (drain m).2 (assembleBlock e s (drain m).1 validator) where
  txs := by
    have hsplit := List.take_append_drop maxTxsPerBlock (Queue.byFee txFee m.pendingTxs)
    refine (Queue.byFee_perm txFee m.pendingTxs).symm.trans ?_
    rw [← hsplit, drain_eq]
    exact List.perm_append_comm
  kernels := by
    have hkernels : (drain m).1.tx.kernels = m.selectedTxs.flatMap Transaction.kernels := by
      rw [drain_tx]
      rfl
    rw [← hkernels]
    exact ⟨_, rfl⟩
  nameOps := by
    rw [drain_eq]
    exact queueFate_of_selects selects_nameOp rfl (Queue.byFee_perm _ _) _
  transferOps := by
    rw [drain_eq]
    exact queueFate_of_selects selects_transferOp rfl (List.Perm.refl _) _
  launchOps := by
    rw [drain_eq]
    exact queueFate_of_selects selects_launchOp rfl (List.Perm.refl _) _
  mintOps := by
    rw [drain_eq]
    exact queueFate_of_selects selects_mintOp rfl (Queue.byFee_perm _ _) _
  transferAssetOps := by
    rw [drain_eq]
    exact queueFate_of_selects selects_transferAssetOp rfl (List.Perm.refl _) _
  validatorOps := by
    rw [drain_eq]
    exact queueFate_of_selects selects_validatorOp rfl (List.Perm.refl _) _

/-- **What a round does with what was pending.** When it is not this node's turn, nothing. Otherwise
what was drained is in the block or was skipped, whatever the chain's answer to the block is. -/
theorem round_fates :
    match (round e s m).2 with
    | none => (round e s m).1 = (s, m)
    | some (b, result) =>
        s.applyBlock b = ((round e s m).1.1, result) ∧ Fates e s m (round e s m).1.2 b := by
  unfold round
  cases myValidator e s with
  | none => rfl
  | some validator =>
      cases hturn : eligible e s validator with
      | false => simp [hturn]
      | true =>
          simp only [hturn, Bool.not_true, Bool.false_eq_true, if_false]
          exact ⟨trivial, fates_assembleBlock e s m validator⟩

/-- A good payment that shares its block with one from a coin that does not exist is lost: the block
is rejected, nothing is pending afterwards, and the same chain still accepts the payment alone. -/
theorem round_loses_payment :
    let good := Devnet.payment (genesisTotalMinted - 1_000_000) 7 8 5
    let s := ChainState.deliver [Devnet.genesis]
    let m := Mempool.run Devnet.serializedSize
      [.addTransaction good, .addTransaction (Devnet.payment 1000 11 12 5)]
    let after := round Devnet.env s m
    m.pendingTxs.length = 2 ∧
      (∃ r ∈ after.2, r.2.isApplied = false) ∧
      after.1.2.pendingTxs = [] ∧
      ∃ r ∈ (round Devnet.env after.1.1 (Mempool.run Devnet.serializedSize
          [.addTransaction good])).2,
        r.2.isApplied = true ∧ ∀ k ∈ good.kernels, k ∈ r.1.body.kernels := by
  decide +kernel

end Proposer

end Haze
