import Haze.Lib.Checked
import Haze.Lib.Reserve
import Haze.Wallet.Slate

/-!
# Spending from one ledger (`api/src/faucet.rs`)

The faucet and the wallets spend from a ledger in several ways: a plan to send, a slate, a payment that
sponsors somebody's fee. A sponsored payment marks its inputs as spent when it is built, under the lock of
the ledger. A plan or a slate does so in a step of its own after the mempool has accepted the transaction:
the handlers let go of the mempool before they lock the ledger, and others use the ledger in between. The
mark is what keeps the next transaction from taking the inputs again, and `reconcile` removes it from every
output that the chain still has: that is also the case for the inputs of a transaction that waits to be
mined.

`no_double_spend` says what keeps the transactions apart. A plan or a slate is completed while its inputs
are neither marked nor about to be; nothing is sponsored while an output that is about to be marked can be
selected; and the ledger is not reconciled while the chain has a marked input of a transaction that waits.
-/

namespace Haze

open Checked

variable {P : Crypto} {W : WalletCrypto P}

/-! ## Sponsored payments

A sponsored payment is made by the service itself for somebody else's registration. It enters the ledger in
the same step, and is taken back if the mempool does not queue the registration. -/

/-- What `build_sponsored_fee_payment` draws at random. -/
structure SponsorCoins (W : WalletCrypto P) where
  change : OutputCoins W
  nonce : P.Scalar

/-- A payment with what is needed to take it back. -/
structure SponsoredPayment (P : Crypto) where
  transaction : Transaction P
  spent : List (Commitment P)
  changeIndex : Option UInt32

/-- `build_sponsored_fee_payment`; an error leaves the keystore and the ledger alone. -/
def buildSponsoredFeePayment (W : WalletCrypto P) (coins : SponsorCoins W) (keystore : Keystore)
    (store : WalletStore P) (fee : UInt64) :
    Option (Except PlanError (SponsoredPayment P × Keystore × WalletStore P)) :=
  match selectSpendableConfirmedOnly store fee with
  | .error e => some (.error e)
  | .ok selected => do
      let blindings ← inputBlindings W keystore selected
      let (change, changeBlinding, keystore) :=
        makeChange W coins.change keystore (totalValue selected - fee)
      let spent := selected.map PlannedOutput.commitment
      let excess := blindings.sum - changeBlinding
      let kernel : TxKernel P :=
        { excess := Commitment.new 0 excess
          fee := fee
          signature := Signature.sign (toLeBytes 8 fee.toNat) excess coins.nonce }
      let transaction : Transaction P :=
        { inputs := plannedInputs selected
          outputs := (change.map ChangeInfo.output).toList
          kernels := [kernel] }
      return .ok (⟨transaction, spent, change.map ChangeInfo.index⟩, keystore,
        (store.addPending (change.map ChangeInfo.planned).toList).markAllSpent spent)

/-- A sponsored payment takes confirmed outputs, adds its change and marks its inputs. -/
theorem buildSponsoredFeePayment_ok {coins : SponsorCoins W} {keystore keystore' : Keystore}
    {store store' : WalletStore P} {fee : UInt64} {payment : SponsoredPayment P}
    (h : buildSponsoredFeePayment W coins keystore store fee =
      some (.ok (payment, keystore', store'))) :
    ∃ selected blindings made, selectSpendableConfirmedOnly store fee = .ok selected ∧
      inputBlindings W keystore selected = some blindings ∧
      made = makeChange W coins.change keystore (totalValue selected - fee) ∧
      payment.transaction =
        ⟨plannedInputs selected, (made.1.map ChangeInfo.output).toList,
          [⟨Commitment.new 0 (blindings.sum - made.2.1), fee,
            Signature.sign (toLeBytes 8 fee.toNat) (blindings.sum - made.2.1) coins.nonce⟩]⟩ ∧
      payment.spent = selected.map PlannedOutput.commitment ∧
      payment.changeIndex = made.1.map ChangeInfo.index ∧
      store' = (store.addPending (made.1.map ChangeInfo.planned).toList).markAllSpent
        payment.spent := by
  unfold buildSponsoredFeePayment at h
  split at h
  · simp at h
  next selected hselected =>
    simp only [Option.bind_eq_bind, Option.bind_eq_some_iff, Option.pure_def, Option.some.injEq,
      Prod.mk.injEq, Except.ok.injEq] at h
    obtain ⟨blindings, hblindings, rfl, -, rfl⟩ := h
    exact ⟨selected, blindings, _, hselected, hblindings, rfl, rfl, rfl, rfl, rfl⟩

/-- It spends what it has taken. -/
theorem spent_buildSponsoredFeePayment {coins : SponsorCoins W} {keystore keystore' : Keystore}
    {store store' : WalletStore P} {fee : UInt64} {payment : SponsoredPayment P}
    (h : buildSponsoredFeePayment W coins keystore store fee =
      some (.ok (payment, keystore', store'))) :
    payment.transaction.spent = payment.spent := by
  obtain ⟨selected, blindings, made, -, -, -, htx, hspent, -⟩ := buildSponsoredFeePayment_ok h
  rw [htx, hspent]
  simp [Transaction.spent, plannedInputs, Function.comp_def]

/-- `revert_fee_payment`. -/
def revertFeePayment (store : WalletStore P) (payment : SponsoredPayment P) : WalletStore P :=
  let store := payment.spent.foldl WalletStore.unmarkSpent store
  match payment.changeIndex with
  | some index => store.removePendingOutput index
  | none => store

/-! ## The system

The steps are those that the handlers take under one lock at a time. Between the answer of the mempool and
the mark in the ledger there is a list of what has been accepted and is still to be marked. -/

/-- A plan or a slate whose transaction a mempool has accepted, and which is still to be entered into the
ledger. -/
inductive Completed (P : Crypto) where
  | plan (plan : SendPlan P)
  | slate (pending : PendingSlate P)

namespace Completed

def spentCommitments : Completed P → List (Commitment P)
  | plan sent => sent.spentCommitments
  | slate pending => pending.spentCommitments

def own : Completed P → List (PlannedOutput P)
  | plan sent => sent.own
  | slate pending => pending.own

/-- The inputs are marked and the outputs added, under one lock. -/
def commit : Completed P → WalletStore P → WalletStore P
  | plan sent => sent.commit
  | slate pending => pending.commit

theorem commit_eq (completed : Completed P) (store : WalletStore P) :
    completed.commit store = (store.markAllSpent completed.spentCommitments).addPending completed.own := by
  cases completed <;> rfl

end Completed

/-- A ledger, the chain it is reconciled with, and what has been made from it: plans and slates that
may still be handed in, those that have been accepted and are not entered into the ledger yet, sponsored
payments that are not queued yet, and the transactions that a mempool has accepted and no block has. -/
structure Spender (P : Crypto) where
  keystore : Keystore
  store : WalletStore P
  utxos : Finset (Commitment P)
  plans : List (SendPlan P)
  slates : List (PendingSlate P)
  completed : List (Completed P)
  sponsored : List (SponsoredPayment P)
  inFlight : List (Transaction P)

/-- What a wallet, a faucet or the chain does, one lock at a time. Plans, slates and payments are given by
their places. -/
inductive SpenderOp (W : WalletCrypto P) where
  | planSend (amount fee : UInt64) (coins : ℕ → SendCoins W)
  /-- A mempool accepts the transaction of a plan, or does not. -/
  | broadcast (i : ℕ) (accepted : Bool)
  | createSlate (amount fee : UInt64) (coins : ℕ → SlateCoins W)
  /-- The response comes back, and a mempool accepts the transaction, or does not. -/
  | complete (i : ℕ) (response : Slate P) (accepted : Bool)
  /-- What has been accepted is entered into the ledger. -/
  | mark (i : ℕ)
  | receive (slate : Slate P) (coins : ResponseCoins W)
  | sponsor (fee : UInt64) (coins : SponsorCoins W)
  /-- A mempool queues what a sponsored payment pays for; otherwise the payment is taken back. -/
  | queue (i : ℕ) (added : Bool)
  | reconcile
  /-- A block, after which the chain has the given coins; some transactions leave the mempool. -/
  | applyBlock (utxos : Finset (Commitment P)) (mined : Transaction P → Bool)

def SpenderOp.isSponsor : SpenderOp W → Bool
  | .sponsor _ _ => true
  | _ => false

def SpenderOp.isReconcile : SpenderOp W → Bool
  | .reconcile => true
  | _ => false

namespace Spender

def start (keystore : Keystore) (store : WalletStore P) (utxos : Finset (Commitment P)) : Spender P :=
  ⟨keystore, store, utxos, [], [], [], [], []⟩

variable (s : Spender P)

/-- A mempool has accepted the transaction of a plan or a slate. -/
def accept (transaction : Transaction P) (completed : Completed P) : Spender P :=
  { s with inFlight := s.inFlight ++ [transaction], completed := s.completed ++ [completed] }

def step (W : WalletCrypto P) (s : Spender P) : SpenderOp W → Spender P
  | .planSend amount fee coins =>
      match planSend W coins s.keystore s.store amount fee with
      | some (.ok plan, keystore) => { s with keystore := keystore, plans := s.plans ++ [plan] }
      | some (.error _, keystore) => { s with keystore := keystore }
      | none => s
  | .broadcast i accepted =>
      match s.plans[i]? with
      | some plan =>
          if plan.transaction.validate && accepted then
            { s.accept plan.transaction (.plan plan) with plans := s.plans.eraseIdx i }
          else s
      | none => s
  | .createSlate amount fee coins =>
      match createSlate W coins s.keystore s.store amount fee with
      | some (.ok (_, pending), keystore) =>
          { s with keystore := keystore, slates := s.slates ++ [pending] }
      | some (.error _, keystore) => { s with keystore := keystore }
      | none => s
  | .complete i response accepted =>
      match s.slates[i]? with
      | some pending =>
          match finalizeSlate pending response with
          | .ok transaction =>
              if transaction.validate && accepted then
                { s.accept transaction (.slate pending) with slates := s.slates.eraseIdx i }
              else s
          | .error _ => s
      | none => s
  | .mark i =>
      match s.completed[i]? with
      | some completed =>
          { s with store := completed.commit s.store, completed := s.completed.eraseIdx i }
      | none => s
  | .receive slate coins =>
      let ((_, owned), keystore) := respondToSlate W coins s.keystore slate
      { s with
        keystore := keystore
        store := s.store.addPending [⟨owned.index, owned.commitment, owned.value⟩] }
  | .sponsor fee coins =>
      match buildSponsoredFeePayment W coins s.keystore s.store fee with
      | some (.ok (payment, keystore, store)) =>
          { s with keystore := keystore, store := store, sponsored := s.sponsored ++ [payment] }
      | _ => s
  | .queue i added =>
      match s.sponsored[i]? with
      | some payment =>
          if added then
            { s with
              inFlight := s.inFlight ++ [payment.transaction]
              sponsored := s.sponsored.eraseIdx i }
          else
            { s with
              store := revertFeePayment s.store payment
              sponsored := s.sponsored.eraseIdx i }
      | none => s
  | .reconcile => { s with store := s.store.reconcile s.utxos }
  | .applyBlock utxos mined =>
      { s with utxos := utxos, inFlight := s.inFlight.filter fun tx => !mined tx }

/-- No two transactions that wait to be mined spend the same commitment. -/
def NoDoubleSpend : Prop :=
  s.inFlight.Pairwise fun tx tx' => List.Disjoint tx.spent tx'.spent

/-! ## The condition

The clauses close the ways for an output to be taken twice: a commitment that is in the ledger twice, a plan
made before another one was completed, a payment that is built before the mark is set, and a mark that is
removed before the chain has spent the output. -/

/-- The inputs of every transaction that a mempool has accepted, or that is built and about to be queued. -/
def held : List (List (Commitment P)) :=
  (s.inFlight ++ s.sponsored.map SponsoredPayment.transaction).map Transaction.spent

/-- What is about to be marked: the inputs of what has been accepted and is not in the ledger yet. -/
def due : List (Commitment P) :=
  s.completed.flatMap Completed.spentCommitments

/-- The outputs that a step adds to the ledger. -/
def adds (W : WalletCrypto P) (s : Spender P) : SpenderOp W → List (PlannedOutput P)
  | .mark i => (s.completed[i]?.map Completed.own).getD []
  | .receive slate coins =>
      let owned := (respondToSlate W coins s.keystore slate).1.2
      [⟨owned.index, owned.commitment, owned.value⟩]
  | .sponsor fee coins =>
      match selectSpendableConfirmedOnly s.store fee with
      | .ok selected =>
          ((makeChange W coins.change s.keystore (totalValue selected - fee)).1.map
            ChangeInfo.planned).toList
      | .error _ => []
  | _ => []

/-- The inputs of the plan or the slate that a step completes. -/
def completes (s : Spender P) : SpenderOp W → List (Commitment P)
  | .broadcast i true => (s.plans[i]?.map SendPlan.spentCommitments).getD []
  | .complete i _ true => (s.slates[i]?.map PendingSlate.spentCommitments).getD []
  | _ => []

/-- Marked as spent. -/
def Marked (store : WalletStore P) (c : Commitment P) : Prop :=
  store.statusOf c = some .spent

/-- What a step has to observe. -/
structure Careful (s : Spender P) (op : SpenderOp W) : Prop where
  /-- What is added to the ledger is new to it. -/
  fresh : (s.store.commitments ++ (s.adds W op).map PlannedOutput.commitment).Nodup
  /-- And no transaction that waits spends it. -/
  unused : ∀ spent ∈ s.held, ∀ o ∈ s.adds W op, o.commitment ∉ spent
  /-- What is completed has inputs that are still there, and neither marked nor about to be. -/
  unspent : ∀ c ∈ s.completes op, c ∉ s.due ∧
    (s.store.statusOf c = some .pending ∨ s.store.statusOf c = some .confirmed)
  /-- Nothing is sponsored while an output that is about to be marked is confirmed. -/
  entered : op.isSponsor = true → ∀ c ∈ s.due, s.store.statusOf c ≠ some .confirmed
  /-- The ledger is not reconciled while the chain has a marked input of a transaction that waits. -/
  settled : op.isReconcile = true → ∀ spent ∈ s.held, ∀ c ∈ spent, Marked s.store c → c ∉ s.utxos

instance (store : WalletStore P) (c : Commitment P) : Decidable (Marked store c) :=
  inferInstanceAs (Decidable (store.statusOf c = some .spent))

instance (s : Spender P) (op : SpenderOp W) : Decidable (Careful s op) :=
  decidable_of_iff ((s.store.commitments ++ (s.adds W op).map PlannedOutput.commitment).Nodup ∧
      (∀ spent ∈ s.held, ∀ o ∈ s.adds W op, o.commitment ∉ spent) ∧
      (∀ c ∈ s.completes op, c ∉ s.due ∧
        (s.store.statusOf c = some .pending ∨ s.store.statusOf c = some .confirmed)) ∧
      (op.isSponsor = true → ∀ c ∈ s.due, s.store.statusOf c ≠ some .confirmed) ∧
      (op.isReconcile = true → ∀ spent ∈ s.held, ∀ c ∈ spent, Marked s.store c → c ∉ s.utxos))
    ⟨fun ⟨fresh, unused, unspent, entered, settled⟩ => ⟨fresh, unused, unspent, entered, settled⟩,
      fun ⟨fresh, unused, unspent, entered, settled⟩ => ⟨fresh, unused, unspent, entered, settled⟩⟩

/-! ## What keeps the transactions apart

An output is kept out of the next selection in two ways. Either it is marked, so that it is not selected, or
it is about to be marked, and then the condition keeps others from taking it. -/

/-- If the ledger has the output at all, it is marked or about to be. -/
def Taken (s : Spender P) (c : Commitment P) : Prop :=
  c ∈ s.store.commitments → Marked s.store c ∨ c ∈ s.due

/-- The invariant: what is held is taken, and nothing is held twice. -/
structure Safe (s : Spender P) : Prop where
  distinct : s.store.commitments.Nodup
  reserved : Reserve.Held s.Taken s.held
  plans : ∀ plan ∈ s.plans, plan.transaction.spent = plan.spentCommitments
  sponsored : ∀ payment ∈ s.sponsored, payment.transaction.spent = payment.spent

section Marking

variable {store : WalletStore P} {own : List (PlannedOutput P)} {spent : List (Commitment P)}
  {c : Commitment P}

theorem mem_of_marked (h : Marked store c) : c ∈ store.commitments := by
  rw [← WalletStore.statusOf_isSome_iff, h]
  rfl

theorem marked_addPending (h : Marked store c) : Marked (store.addPending own) c :=
  (WalletStore.statusOf_addPending_of_mem (mem_of_marked h)).trans h

theorem marked_markAllSpent (h : Marked store c) : Marked (store.markAllSpent spent) c := by
  rw [Marked, WalletStore.statusOf_markAllSpent, h]
  split
  · rfl
  · rfl

theorem marked_of_mem_spent (hmem : c ∈ store.commitments) (hspent : c ∈ spent) :
    Marked (store.markAllSpent spent) c := by
  obtain ⟨status, hstatus⟩ := Option.isSome_iff_exists.mp (WalletStore.statusOf_isSome_iff.mpr hmem)
  rw [Marked, WalletStore.statusOf_markAllSpent, if_pos hspent, hstatus]
  rfl

/-- A revert unmarks the inputs of its own payment only. -/
theorem marked_revertFeePayment {payment : SponsoredPayment P} (hc : c ∉ payment.spent)
    (h : Marked store c) : Marked (revertFeePayment store payment) c := by
  have hreverted : Marked (payment.spent.foldl WalletStore.unmarkSpent store) c :=
    (WalletStore.statusOf_foldl_unmarkSpent hc).trans h
  unfold revertFeePayment
  split
  · exact WalletStore.statusOf_removePendingOutput hreverted
  · exact hreverted

theorem commitments_revertFeePayment (payment : SponsoredPayment P) :
    (revertFeePayment store payment).commitments.Sublist store.commitments := by
  have hsame : (payment.spent.foldl WalletStore.unmarkSpent store).commitments = store.commitments :=
    WalletStore.commitments_foldl_unmarkSpent
  rw [← hsame]
  unfold revertFeePayment
  split
  · exact List.filter_sublist.map _
  · exact List.Sublist.refl _

/-- An output that can be spent is in the ledger, and not marked. -/
theorem mem_not_marked (h : store.statusOf c = some .pending ∨ store.statusOf c = some .confirmed) :
    c ∈ store.commitments ∧ ¬ Marked store c := by
  rw [← WalletStore.statusOf_isSome_iff, Marked]
  rcases h with h | h
  · simp [h]
  · simp [h]

end Marking

/-! ## Steps

The transactions that wait and the payments about to be queued form one list of sets, which may not overlap.
A step puts one set in, takes one out or moves one from a part to the other; the library says what each of
the three needs. -/

variable {s : Spender P}

/-- One more transaction waits. -/
theorem perm_accepted (transaction : Transaction P) (inFlight queued : List (Transaction P)) :
    (transaction.spent :: (inFlight ++ queued).map Transaction.spent).Perm
      (((inFlight ++ [transaction]) ++ queued).map Transaction.spent) := by
  rw [List.append_assoc, List.singleton_append, ← List.map_cons]
  exact List.perm_middle.symm.map _

/-- Taking out a sponsored payment takes out its inputs. -/
theorem held_perm_eraseIdx {i : ℕ} {payment : SponsoredPayment P} (h : s.sponsored[i]? = some payment) :
    s.held.Perm (payment.transaction.spent ::
      (s.inFlight ++ (s.sponsored.eraseIdx i).map SponsoredPayment.transaction).map
        Transaction.spent) := by
  obtain ⟨hi, rfl⟩ := List.getElem?_eq_some_iff.mp h
  have hperm := (List.getElem_cons_eraseIdx_perm hi).symm.map SponsoredPayment.transaction
  refine ((hperm.append_left s.inFlight).map Transaction.spent).trans ?_
  rw [List.map_cons, ← List.map_cons]
  exact List.perm_middle.map _

theorem due_accept (transaction : Transaction P) (completed : Completed P) :
    (s.accept transaction completed).due = s.due ++ completed.spentCommitments := by
  simp [due, accept]

/-- What is due after one entry is due, or one of that entry's inputs. -/
theorem mem_due_of_getElem? {i : ℕ} {completed : Completed P} (h : s.completed[i]? = some completed)
    {c : Commitment P} (hc : c ∈ s.due) :
    c ∈ completed.spentCommitments ∨ c ∈ (s.completed.eraseIdx i).flatMap Completed.spentCommitments := by
  obtain ⟨hi, rfl⟩ := List.getElem?_eq_some_iff.mp h
  obtain ⟨other, hother, hmem⟩ := List.mem_flatMap.mp hc
  rcases List.mem_cons.mp ((List.getElem_cons_eraseIdx_perm hi).mem_iff.mpr hother) with rfl | hrest
  · exact .inl hmem
  · exact .inr (List.mem_flatMap.mpr ⟨other, hrest, hmem⟩)

/-- A transaction is accepted whose inputs are neither marked nor about to be; from now on they are. -/
theorem Safe.accept (h : Safe s) {transaction : Transaction P} {completed : Completed P}
    (hspent : transaction.spent = completed.spentCommitments)
    (hunspent : ∀ c ∈ completed.spentCommitments, c ∉ s.due ∧
      (s.store.statusOf c = some .pending ∨ s.store.statusOf c = some .confirmed)) :
    Safe (s.accept transaction completed) := by
  refine ⟨h.distinct, ?_, h.plans, h.sponsored⟩
  refine (h.reserved.take ?_ ?_ ?_).perm (perm_accepted transaction _ _)
  · intro c hc htaken
    rw [hspent] at hc
    obtain ⟨hdue, hstatus⟩ := hunspent c hc
    obtain ⟨hmem, hmarked⟩ := mem_not_marked hstatus
    exact (htaken hmem).elim hmarked hdue
  · intro c hc _
    rw [hspent] at hc
    rw [due_accept]
    exact .inr (List.mem_append_right _ hc)
  · intro _ _ c _ htaken hmem
    rw [due_accept]
    exact (htaken hmem).imp_right (List.mem_append_left _)

theorem Safe.broadcast (h : Safe s) {i : ℕ} {accepted : Bool}
    (hcareful : s.Careful (.broadcast (W := W) i accepted)) :
    Safe (s.step W (.broadcast i accepted)) := by
  unfold step
  dsimp only
  split
  next plan hplan =>
    split
    next haccepted =>
      obtain rfl : accepted = true := (Bool.and_eq_true_iff.mp haccepted).2
      have hunspent := hcareful.unspent
      simp only [completes, hplan, Option.map_some, Option.getD_some] at hunspent
      have hsafe : Safe (s.accept plan.transaction (.plan plan)) :=
        h.accept (h.plans plan (List.mem_of_getElem? hplan)) hunspent
      refine ⟨hsafe.distinct, hsafe.reserved, ?_, hsafe.sponsored⟩
      exact fun plan' hplan' => h.plans plan' (List.mem_of_mem_eraseIdx hplan')
    next => exact h
  next => exact h

theorem Safe.complete (h : Safe s) {i : ℕ} {response : Slate P} {accepted : Bool}
    (hcareful : s.Careful (.complete (W := W) i response accepted)) :
    Safe (s.step W (.complete i response accepted)) := by
  unfold step
  dsimp only
  split
  next pending hpending =>
    split
    next transaction hfinal =>
      split
      next haccepted =>
        obtain rfl : accepted = true := (Bool.and_eq_true_iff.mp haccepted).2
        have hunspent := hcareful.unspent
        simp only [completes, hpending, Option.map_some, Option.getD_some] at hunspent
        obtain ⟨output, excess, nonce, partialSig, -, -, rfl⟩ := finalizeSlate_ok hfinal
        have hspent : (pending.assemble output excess nonce partialSig).spent =
            pending.spentCommitments := by
          simp [PendingSlate.assemble, Transaction.spent, Function.comp_def]
        have hsafe : Safe (s.accept _ (.slate pending)) := h.accept hspent hunspent
        exact ⟨hsafe.distinct, hsafe.reserved, hsafe.plans, hsafe.sponsored⟩
      next => exact h
    next => exact h
  next => exact h

/-- What was about to be marked is marked now, and what is added was never spent. -/
theorem Safe.mark (h : Safe s) {i : ℕ} (hcareful : s.Careful (.mark (W := W) i)) :
    Safe (s.step W (.mark i)) := by
  unfold step
  dsimp only
  split
  next completed hcompleted =>
    have hfresh := hcareful.fresh
    have hunused := hcareful.unused
    simp only [adds, hcompleted, Option.map_some, Option.getD_some] at hfresh hunused
    have hcommitments : (completed.commit s.store).commitments =
        s.store.commitments ++ completed.own.map PlannedOutput.commitment := by
      rw [Completed.commit_eq, WalletStore.commitments_addPending, WalletStore.commitments_markAllSpent]
    refine ⟨?_, ?_, h.plans, h.sponsored⟩
    · show (completed.commit s.store).commitments.Nodup
      rw [hcommitments]
      exact hfresh
    · refine h.reserved.mono ?_
      intro spent hspent c hc htaken hmem
      change c ∈ (completed.commit s.store).commitments at hmem
      rw [hcommitments] at hmem
      have hmem : c ∈ s.store.commitments := by
        refine (List.mem_append.mp hmem).resolve_right fun hadded => ?_
        obtain ⟨o, ho, rfl⟩ := List.mem_map.mp hadded
        exact hunused spent hspent o ho hc
      show Marked (completed.commit s.store) c ∨
        c ∈ (s.completed.eraseIdx i).flatMap Completed.spentCommitments
      rw [Completed.commit_eq]
      rcases htaken hmem with hmarked | hdue
      · exact .inl (marked_addPending (marked_markAllSpent hmarked))
      · rcases mem_due_of_getElem? hcompleted hdue with hinput | hrest
        · exact .inl (marked_addPending (marked_of_mem_spent hmem hinput))
        · exact .inr hrest
  next => exact h

/-- What is added to the ledger takes nothing away from those who hold something. -/
theorem taken_addPending {own : List (PlannedOutput P)} {store : WalletStore P} {c : Commitment P}
    (hown : ∀ o ∈ own, o.commitment ≠ c) (hstore : store = s.store.addPending own) (h : s.Taken c) :
    Taken { s with store := store } c := by
  subst hstore
  intro hmem
  change c ∈ (s.store.addPending own).commitments at hmem
  rw [WalletStore.commitments_addPending] at hmem
  have hmem : c ∈ s.store.commitments := by
    refine (List.mem_append.mp hmem).resolve_right fun hadded => ?_
    obtain ⟨o, ho, heq⟩ := List.mem_map.mp hadded
    exact hown o ho heq
  exact (h hmem).imp_left marked_addPending

/-- A sponsored payment takes confirmed outputs, which nobody holds. -/
theorem Safe.sponsor (h : Safe s) {fee : UInt64} {coins : SponsorCoins W}
    (hcareful : s.Careful (.sponsor fee coins)) : Safe (s.step W (.sponsor fee coins)) := by
  unfold step
  dsimp only
  split
  -- what is selected is confirmed, and so neither marked nor, with care, about to be
  next payment keystore' store' hbuild =>
    have htx := spent_buildSponsoredFeePayment hbuild
    obtain ⟨selected, blindings, made, hselected, -, hmade, -, hspent, -, rfl⟩ :=
      buildSponsoredFeePayment_ok hbuild
    have hfresh := hcareful.fresh
    have hunused := hcareful.unused
    simp only [adds, hselected, ← hmade] at hfresh hunused
    have hconfirmed : ∀ c ∈ payment.spent, c ∈ s.store.commitments ∧
        s.store.statusOf c = some .confirmed := by
      intro c hc
      obtain ⟨taken, htaken, rfl, -⟩ := selectFrom_ok hselected
      rw [hspent, List.map_map] at hc
      obtain ⟨o, ho, rfl⟩ := List.mem_map.mp hc
      obtain ⟨hmem, hstatus⟩ := WalletStore.mem_spendable.mp (htaken.subset ho)
      exact ⟨List.mem_map_of_mem hmem,
        (WalletStore.statusOf_of_mem h.distinct hmem).trans (congrArg some hstatus)⟩
    refine ⟨?_, ?_, h.plans, ?_⟩
    · rw [WalletStore.commitments_markAllSpent, WalletStore.commitments_addPending]
      exact hfresh
    · have hheld : (payment.transaction.spent :: s.held).Perm ((s.inFlight ++
          (s.sponsored ++ [payment]).map SponsoredPayment.transaction).map Transaction.spent) := by
        have hsplit : s.inFlight ++ (s.sponsored ++ [payment]).map SponsoredPayment.transaction =
            (s.inFlight ++ s.sponsored.map SponsoredPayment.transaction) ++ [payment.transaction] := by
          simp
        rw [hsplit, List.map_append, List.map_singleton]
        exact (List.perm_append_singleton _ _).symm
      refine (Reserve.Held.take h.reserved ?_ ?_ ?_).perm hheld
      · intro c hc htaken
        rw [htx] at hc
        obtain ⟨hmem, hstatus⟩ := hconfirmed c hc
        exact (htaken hmem).elim (mem_not_marked (.inr hstatus)).2
          fun hdue => hcareful.entered rfl c hdue hstatus
      · intro c hc _
        rw [htx] at hc
        refine .inl (marked_of_mem_spent ?_ hc)
        rw [WalletStore.commitments_addPending]
        exact List.mem_append_left _ (hconfirmed c hc).1
      · intro spent hheldSpent c hc htaken hmem
        change c ∈ (WalletStore.markAllSpent _ _).commitments at hmem
        rw [WalletStore.commitments_markAllSpent] at hmem
        exact (taken_addPending (fun o ho heq => hunused spent hheldSpent o ho (heq ▸ hc)) rfl htaken
          hmem).imp_left marked_markAllSpent
    · rw [List.forall_mem_append]
      exact ⟨h.sponsored, by simpa using htx⟩
  next => exact h

theorem Safe.queue (h : Safe s) {i : ℕ} {added : Bool} :
    Safe (s.step W (.queue i added)) := by
  unfold step
  dsimp only
  split
  next payment hpayment =>
    have hsponsored : ∀ payment' ∈ s.sponsored.eraseIdx i,
        payment'.transaction.spent = payment'.spent :=
      fun payment' hmem => h.sponsored payment' (List.mem_of_mem_eraseIdx hmem)
    have hperm := held_perm_eraseIdx hpayment
    split
    · refine ⟨h.distinct, h.reserved.perm ?_, h.plans, hsponsored⟩
      exact hperm.trans (perm_accepted payment.transaction _ _)
    · have hsub : (revertFeePayment s.store payment).commitments.Sublist s.store.commitments :=
        commitments_revertFeePayment payment
      refine ⟨h.distinct.sublist hsub, ?_, h.plans, hsponsored⟩
      refine (h.reserved.perm hperm).release ?_
      intro c hc htaken hmem
      rw [h.sponsored payment (List.mem_of_getElem? hpayment)] at hc
      exact (htaken (hsub.subset hmem)).imp_left (marked_revertFeePayment hc)
  next => exact h

theorem Safe.reconcile (h : Safe s) (hcareful : s.Careful (.reconcile : SpenderOp W)) :
    Safe (s.step W .reconcile) := by
  refine ⟨?_, ?_, h.plans, h.sponsored⟩
  · show (s.store.reconcile s.utxos).commitments.Nodup
    rw [WalletStore.commitments_reconcile]
    exact h.distinct
  · refine h.reserved.mono ?_
    intro spent hspent c hc htaken hmem
    change c ∈ (s.store.reconcile s.utxos).commitments at hmem
    rw [WalletStore.commitments_reconcile] at hmem
    refine (htaken hmem).imp_left fun hmarked => ?_
    show (s.store.reconcile s.utxos).statusOf c = some .spent
    rw [WalletStore.statusOf_reconcile, hmarked,
      decide_eq_false (hcareful.settled rfl spent hspent c hc hmarked)]
    rfl

theorem Safe.step (h : Safe s) {op : SpenderOp W} (hcareful : s.Careful op) : Safe (s.step W op) := by
  cases op with
  | planSend amount fee coins =>
      unfold Spender.step
      dsimp only
      split
      next plan keystore' hplan =>
        refine ⟨h.distinct, h.reserved, ?_, h.sponsored⟩
        rw [List.forall_mem_append]
        exact ⟨h.plans, by simpa using spent_planSend hplan⟩
      next => exact ⟨h.distinct, h.reserved, h.plans, h.sponsored⟩
      next => exact h
  | broadcast i accepted => exact h.broadcast hcareful
  | createSlate amount fee coins =>
      unfold Spender.step
      dsimp only
      split
      next => exact ⟨h.distinct, h.reserved, h.plans, h.sponsored⟩
      next => exact ⟨h.distinct, h.reserved, h.plans, h.sponsored⟩
      next => exact h
  | complete i response accepted => exact h.complete hcareful
  | mark i => exact h.mark hcareful
  | receive slate coins =>
      refine ⟨?_, ?_, h.plans, h.sponsored⟩
      · have hfresh := hcareful.fresh
        rw [← WalletStore.commitments_addPending] at hfresh
        exact hfresh
      · refine h.reserved.mono ?_
        intro spent hspent c hc htaken
        exact taken_addPending (fun o ho heq => hcareful.unused spent hspent o ho (heq ▸ hc)) rfl htaken
  | sponsor fee coins => exact h.sponsor hcareful
  | queue i added => exact h.queue
  | reconcile => exact h.reconcile hcareful
  | applyBlock utxos mined =>
      refine ⟨h.distinct, h.reserved.sublist ?_, h.plans, h.sponsored⟩
      exact ((List.filter_sublist).append (List.Sublist.refl _)).map _

/-- **No self double spend**, in every run whose steps are careful. -/
theorem no_double_spend {keystore : Keystore} {store : WalletStore P} {utxos : Finset (Commitment P)}
    {ops : List (SpenderOp W)} (hdistinct : store.commitments.Nodup)
    (h : Guarded (Spender.step W) Careful (start keystore store utxos) ops) :
    NoDoubleSpend (ops.foldl (Spender.step W) (start keystore store utxos)) := by
  have hstart : Safe (start keystore store utxos) := by
    refine ⟨hdistinct, Reserve.Held.nil, ?_, ?_⟩
    · intro plan hplan
      cases hplan
    · intro payment hpayment
      cases hpayment
  have hsafe := h.invariant (I := Safe) (fun s op hs hcareful => hs.step hcareful) hstart
  have hapart := hsafe.reserved.apart
  rw [held, List.map_append] at hapart
  exact List.pairwise_map.mp (List.pairwise_append.mp hapart).1

end Spender

namespace Devnet

open Spender

def faucet : Keystore := ⟨natBytes 3, 0⟩

/-- The treasury output, with blinding factor 7. -/
def treasury : Commitment crypto := Commitment.new (P := crypto) (genesisTotalMinted - 1_000_000) 7

def faucetStore : WalletStore crypto :=
  WalletStore.new.addOutput faucetIndex (genesisTotalMinted - 1_000_000) treasury .confirmed

def sponsorCoins : SponsorCoins wallet := ⟨coins, (5 : BitVec 256)⟩

/-- A registration is sponsored: the ledger is reconciled, and the payment built and queued. -/
def sponsored : List (SpenderOp wallet) :=
  [.reconcile, .sponsor nameRegistrationFee sponsorCoins, .queue 0 true]

/-- The second registration comes before the first is mined, and gets the output of the first. -/
theorem sponsored_twice :
    ((sponsored ++ sponsored).foldl (step wallet)
        (start faucet faucetStore {treasury})).inFlight.all Transaction.validate = true ∧
      ¬ NoDoubleSpend ((sponsored ++ sponsored).foldl (step wallet)
        (start faucet faucetStore {treasury})) := by
  have hrun : ((sponsored ++ sponsored).foldl (step wallet)
        (start faucet faucetStore {treasury})).inFlight.map Transaction.spent =
          [[treasury], [treasury]] ∧
      ((sponsored ++ sponsored).foldl (step wallet)
        (start faucet faucetStore {treasury})).inFlight.all Transaction.validate = true := by
    decide +kernel
  refine ⟨hrun.2, ?_⟩
  intro hapart
  have hpairwise := List.pairwise_map.mpr hapart
  rw [hrun.1] at hpairwise
  simp at hpairwise

/-- The faucet with a second output. -/
def secondStore : WalletStore crypto :=
  faucetStore.addOutput 0 1000 (Commitment.new 1000 (faucet.deriveBlinding wallet 0)) .confirmed

/-- A plan is completed and entered into the ledger, and then a registration is sponsored. -/
def spendings : List (SpenderOp wallet) :=
  [.planSend 100 5 fun _ => ⟨coins, coins, (5 : BitVec 256)⟩, .broadcast 0 true, .mark 0,
    .sponsor nameRegistrationFee sponsorCoins, .queue 0 true]

theorem sponsored_apart :
    (spendings.foldl (step wallet) (start ⟨natBytes 3, 1⟩ secondStore {treasury})).inFlight.length
        = 2 ∧
      NoDoubleSpend (spendings.foldl (step wallet)
        (start ⟨natBytes 3, 1⟩ secondStore {treasury})) := by
  refine ⟨by decide +kernel, no_double_spend (by decide +kernel) ?_⟩
  exact ⟨by decide +kernel, by decide +kernel, by decide +kernel, by decide +kernel, by decide +kernel,
    trivial⟩

end Devnet

end Haze
