import Haze.Wallet.Exact

/-!
# Replacing a seed (`rotate_seed_transaction` in `src/wasm.rs`)

The wallet pays its whole confirmed balance to a new seed, with the two-party protocol played by one
caller. The amount is the balance without the fee, counted over the confirmed outputs; what the protocol
then selects ranges over pending ones as well, the largest first. Nothing is left behind if these two agree.
-/

namespace Haze

variable {P : Crypto} {W : WalletCrypto P}

inductive RotateError where
  | feeExceedsBalance (balance fee : UInt64)
  | plan (e : PlanError)
  | finalize
  | producedChange
  deriving DecidableEq

structure RotateSeedResult (P : Crypto) where
  transaction : Transaction P
  spentCommitments : List (Commitment P)
  dest : OwnedOutputInfo P

/-- `rotate_seed_transaction`, on the keystores and the store behind the bytes. -/
def rotateSeedTransaction (W : WalletCrypto P) (coins : ℕ → SlateCoins W) (answer : ResponseCoins W)
    (oldKeystore : Keystore) (store : WalletStore P) (newKeystore : Keystore) (fee : UInt64) :
    Option (Except RotateError (RotateSeedResult P)) :=
  let balance := store.balance
  if balance < fee then some (.error (.feeExceedsBalance balance fee))
  else
    match createSlate W coins oldKeystore store (balance - fee) fee with
    | none => none
    | some (.error e, _) => some (.error (.plan e))
    | some (.ok (slate, pending), _) =>
        let ((response, receiverInfo), _) := respondToSlate W answer newKeystore slate
        match finalizeSlate pending response with
        | .error _ => some (.error .finalize)
        | .ok tx =>
            if pending.change.isSome then some (.error .producedChange)
            else some (.ok ⟨tx, pending.spentCommitments, receiverInfo⟩)

/-- The confirmed outputs. -/
def WalletStore.confirmed (store : WalletStore P) : List (OwnedOutput P) :=
  store.outputs.filter fun o => o.status = .confirmed

theorem WalletStore.mem_confirmed {store : WalletStore P} {o : OwnedOutput P} :
    o ∈ store.confirmed ↔ o ∈ store.outputs ∧ o.status = .confirmed := by
  rw [confirmed, List.mem_filter, decide_eq_true_eq]

/-- What the confirmed outputs are worth. -/
def WalletStore.confirmedTotal (store : WalletStore P) : ℕ :=
  (store.confirmed.map fun o => o.value.toNat).sum

/-- Nothing stays behind: the inputs are the confirmed outputs, and what they are worth goes to the one
output and the fee. -/
structure LeavesNothing (store : WalletStore P) (result : RotateSeedResult P) : Prop where
  inputs : result.transaction.spent.Perm (store.confirmed.map OwnedOutput.commitment)
  noChange : result.transaction.created = [result.dest.commitment]
  value : result.dest.value.toNat + (txFee result.transaction).toNat = store.confirmedTotal

/-- The selection for the whole balance takes the confirmed outputs and nothing is left over, together they
fit `u64`, and the fee pays for so many inputs and one output. -/
structure Sweepable (W : WalletCrypto P) (sample : OutputCoins W) (store : WalletStore P) (fee : UInt64) :
    Prop where
  selects : ∃ selected, selectSpendable store store.balance = .ok selected ∧
    (selected.map PlannedOutput.commitment).Perm (store.confirmed.map OwnedOutput.commitment) ∧
    totalValue selected = store.balance
  fits : store.confirmedTotal < 2 ^ 64
  pays : planPrice W sample store.confirmed.length false ≤ fee.toNat

/-- In the order of the selection no pending output comes before a confirmed one, and no confirmed output
is worth nothing. -/
structure ConfirmedFirst (store : WalletStore P) : Prop where
  order : ∃ front back, store.spendableIncludingPending = front ++ back ∧
    (∀ o ∈ front, o.status = .confirmed) ∧ ∀ o ∈ back, o.status = .pending
  positive : ∀ o ∈ store.confirmed, 0 < o.value.toNat

/-! ## When the selection takes the confirmed outputs

The amount is counted over the confirmed outputs and the selection goes over all that can be spent, in the
order of their values. They agree exactly if the confirmed ones come first and none of them is worth
nothing, since the selection stops before an output it does not need. -/

section Order

open Cover

variable {store : WalletStore P} {front back : List (OwnedOutput P)}

theorem toNat_balance (store : WalletStore P) :
    store.balance.toNat = store.confirmedTotal % 2 ^ 64 := by
  rw [WalletStore.balance, toNat_sum, List.map_map]
  rfl

/-- The confirmed outputs among all that can be spent, in the order of the selection. -/
theorem confirmed_perm (store : WalletStore P) :
    (store.spendableIncludingPending.filter fun o => o.status = .confirmed).Perm store.confirmed := by
  refine ((List.perm_insertionSort _ _).filter _).trans ?_
  rw [List.filter_filter]
  refine List.Perm.of_eq (List.filter_congr ?_)
  intro o _
  cases o.status <;> rfl

theorem front_perm (horder : store.spendableIncludingPending = front ++ back)
    (hfront : ∀ o ∈ front, o.status = .confirmed) (hback : ∀ o ∈ back, o.status = .pending) :
    front.Perm store.confirmed := by
  have hperm := confirmed_perm store
  have hall : (front.filter fun o => o.status = .confirmed) = front :=
    List.filter_eq_self.mpr fun o ho => by simp [hfront o ho]
  have hnone : (back.filter fun o => o.status = .confirmed) = [] :=
    List.filter_eq_nil_iff.mpr fun o ho => by simp [hback o ho]
  rwa [horder, List.filter_append, hall, hnone, List.append_nil] at hperm

/-- Confirmed outputs in front, all worth something, are taken for what they are worth together. -/
theorem ConfirmedFirst.selects (h : ConfirmedFirst store) (hfits : store.confirmedTotal < 2 ^ 64) :
    ∃ selected, selectSpendable store store.balance = .ok selected ∧
      (selected.map PlannedOutput.commitment).Perm (store.confirmed.map OwnedOutput.commitment) ∧
      totalValue selected = store.balance := by
  obtain ⟨⟨front, back, horder, hfront, hback⟩, hpositive⟩ := h
  have hperm := front_perm horder hfront hback
  have hvalues : store.spendableValues = front.map (fun o => o.value.toNat) ++
      back.map fun o => o.value.toNat := by
    rw [WalletStore.spendableValues, horder, List.map_append]
  have hsum : (front.map fun o => o.value.toNat).sum = store.confirmedTotal := (hperm.map _).sum_eq
  have htake : store.spendableValues.take front.length = front.map fun o => o.value.toNat := by
    rw [hvalues, List.take_left' (by simp)]
  have hbalance : store.balance.toNat = store.confirmedTotal := by
    rw [toNat_balance, Nat.mod_eq_of_lt hfits]
  have hcover : cover store.spendableValues store.balance.toNat = some front.length := by
    rw [hbalance, cover_eq_some_iff]
    refine ⟨?_, by rw [htake, hsum], ?_⟩
    · rw [hvalues, List.length_append, List.length_map]
      exact Nat.le_add_right _ _
    · intro j hj
      rw [← hsum, ← htake]
      -- every value is positive, so a shorter prefix falls short of the balance
      refine sum_take_lt ?_ hj (by rw [hvalues]; simp)
      rw [htake]
      intro v hv
      obtain ⟨o, ho, rfl⟩ := List.mem_map.mp hv
      exact hpositive o (hperm.subset ho)
  have hselect := selectSpendable_of_cover hcover (by rwa [htake, hsum])
  rw [horder, List.take_left] at hselect
  refine ⟨_, hselect, ?_, ?_⟩
  · rw [List.map_map]
    exact hperm.map _
  · apply UInt64.toNat_inj.mp
    have hplanned : ((front.map OwnedOutput.planned).map fun o => o.value.toNat).sum =
        store.confirmedTotal := by
      rw [List.map_map]
      exact hsum
    rw [toNat_totalValue (by rwa [hplanned]), hplanned, hbalance]

/-- In a ledger without duplicates, what is selected with the commitments of the confirmed outputs are the
confirmed outputs. -/
theorem confirmedFirst_of_selects (hnodup : store.commitments.Nodup)
    (hfits : store.confirmedTotal < 2 ^ 64) {selected : List (PlannedOutput P)}
    (hselect : selectSpendable store store.balance = .ok selected)
    (hperm : (selected.map PlannedOutput.commitment).Perm
      (store.confirmed.map OwnedOutput.commitment)) : ConfirmedFirst store := by
  obtain ⟨taken, ⟨back, horder⟩, rfl, -⟩ := selectFrom_ok hselect
  have hledger : ∀ o ∈ taken, o ∈ store.outputs := fun o ho =>
    (WalletStore.mem_spendableIncludingPending.mp (horder ▸ List.mem_append_left _ ho)).1
  have hdistinct : store.outputs.Nodup := hnodup.of_map _
  have htaken : taken.Perm store.confirmed := by
    have hsorted : store.spendableIncludingPending.Nodup :=
      (List.perm_insertionSort _ _).nodup_iff.mpr (hdistinct.filter _)
    rw [← horder] at hsorted
    have hconfirmed : store.confirmed.Nodup := hdistinct.filter _
    rw [List.perm_ext_iff_of_nodup hsorted.of_append_left hconfirmed]
    rw [List.map_map] at hperm
    have hmem := fun c => hperm.mem_iff (a := c)
    intro o
    constructor
    · intro ho
      obtain ⟨o', ho', hcommitment⟩ :=
        List.mem_map.mp ((hmem o.commitment).mp (List.mem_map.mpr ⟨o, ho, rfl⟩))
      obtain rfl := List.inj_on_of_nodup_map hnodup (WalletStore.mem_confirmed.mp ho').1 (hledger o ho)
        hcommitment
      exact ho'
    · intro ho
      obtain ⟨o', ho', hcommitment⟩ :=
        List.mem_map.mp ((hmem o.commitment).mpr (List.mem_map.mpr ⟨o, ho, rfl⟩))
      obtain rfl := List.inj_on_of_nodup_map hnodup (hledger o' ho') (WalletStore.mem_confirmed.mp ho).1
        hcommitment
      exact ho'
  have hstatus : ∀ o ∈ taken, o.status = .confirmed := fun o ho =>
    (WalletStore.mem_confirmed.mp (htaken.subset ho)).2
  refine ⟨⟨taken, back, horder.symm, hstatus, ?_⟩, ?_⟩
  · -- there are no more confirmed outputs than those taken
    have hall : (taken.filter fun o => o.status = .confirmed) = taken :=
      List.filter_eq_self.mpr fun o ho => by simp [hstatus o ho]
    have hlength := (confirmed_perm store).length_eq
    rw [← horder, List.filter_append, hall, List.length_append, htaken.length_eq] at hlength
    have hnone : (back.filter fun o => o.status = .confirmed) = [] :=
      List.eq_nil_of_length_eq_zero (by omega)
    intro o ho
    have hspendable : o ∈ store.spendableIncludingPending := horder ▸ List.mem_append_right _ ho
    rcases (WalletStore.mem_spendableIncludingPending.mp hspendable).2 with h | h
    · exact absurd (decide_eq_true h) (List.filter_eq_nil_iff.mp hnone o ho)
    · exact h
  · have hsum : ((taken.map OwnedOutput.planned).map fun o => o.value.toNat).sum =
        store.confirmedTotal := by
      rw [List.map_map]
      exact (htaken.map _).sum_eq
    have hpos := pos_of_cover store.pairwise_spendableValues
      (cover_of_selectSpendable hselect (by rwa [hsum]))
    rw [← values_selected hselect, List.map_map] at hpos
    intro o ho
    exact hpos _ (List.mem_map.mpr ⟨o, htaken.symm.subset ho, rfl⟩)

theorem sweepable_iff (sample : OutputCoins W) {fee : UInt64} (hnodup : store.commitments.Nodup) :
    Sweepable W sample store fee ↔ ConfirmedFirst store ∧ store.confirmedTotal < 2 ^ 64 ∧
      planPrice W sample store.confirmed.length false ≤ fee.toNat := by
  constructor
  · rintro ⟨⟨selected, hselect, hperm, -⟩, hfits, hpays⟩
    exact ⟨confirmedFirst_of_selects hnodup hfits hselect hperm, hfits, hpays⟩
  · rintro ⟨hfirst, hfits, hpays⟩
    exact ⟨hfirst.selects hfits, hfits, hpays⟩

end Order

section Rotation

variable {coins : ℕ → SlateCoins W} {answer : ResponseCoins W} {oldKeystore newKeystore : Keystore}
  {store : WalletStore P} {fee : UInt64} {result : RotateSeedResult P}

/-- A result comes of a slate without change. -/
theorem rotateSeedTransaction_ok
    (h : rotateSeedTransaction W coins answer oldKeystore store newKeystore fee =
      some (.ok result)) :
    fee ≤ store.balance ∧ ∃ slate pending keystore',
      createSlate W coins oldKeystore store (store.balance - fee) fee =
        some (.ok (slate, pending), keystore') ∧
      pending.change = none ∧ result.transaction.spent = pending.spentCommitments ∧
      result.transaction.created = [result.dest.commitment] ∧
      txFee result.transaction = pending.fee ∧ result.dest.value = slate.amount := by
  unfold rotateSeedTransaction at h
  dsimp only at h
  split at h
  · cases h
  next hfee =>
    refine ⟨UInt64.not_lt.mp hfee, ?_⟩
    split at h
    · cases h
    · cases h
    next slate pending keystore' hcreate =>
      obtain ⟨tx, hfinal, hspent, hcreated, hpaid⟩ : ∃ tx,
          finalizeSlate pending (respondToSlate W answer newKeystore slate).1.1 = .ok tx ∧
          tx.spent = pending.spentCommitments ∧
          tx.created = (pending.change.map ChangeInfo.output).toList.map Output.commitment ++
            [(respondToSlate W answer newKeystore slate).1.2.commitment] ∧
          txFee tx = pending.fee := by
        refine ⟨_, rfl, ?_, ?_, ?_⟩
        · simp [PendingSlate.assemble, Transaction.spent, Function.comp_def]
        · simp only [PendingSlate.assemble, Transaction.created, List.map_append]
          rfl
        · simp [PendingSlate.assemble, txFee]
      rw [hfinal] at h
      dsimp only at h
      split at h
      · cases h
      next hnone =>
        have hnone : pending.change = none := by simpa using hnone
        rw [hnone] at hcreated
        cases h
        exact ⟨slate, pending, keystore', hcreate, hnone, hspent, hcreated, hpaid, rfl⟩

/-- A slate whose first attempt pays for its size is that attempt. -/
theorem createSlate_at_once (sample : OutputCoins W) {keystore keystore' : Keystore} {amount : UInt64}
    {slate : Slate P} {pending : PendingSlate P} {selected : List (PlannedOutput P)}
    (hselect : selectSpendable store (amount + fee) = .ok selected)
    (hpays : planPrice W sample selected.length (0 < totalValue selected - (amount + fee)) ≤ fee.toNat)
    (h : createSlate W coins keystore store amount fee = some (.ok (slate, pending), keystore')) :
    pending.fee = fee ∧ pending.spentCommitments = selected.map PlannedOutput.commitment := by
  unfold createSlate maxFeeFitAttempts at h
  rw [fitFee] at h
  split at h
  · cases h
  · cases h
  next built tx keystore₁ hbuild =>
    obtain ⟨slate₁, pending₁⟩ := built
    obtain ⟨hprice, -, -, hfee, hspent, -⟩ := buildSlate_selected sample hselect hbuild
    have henough : fee ≥ requiredFee (Transaction.serializedSize W) tx := by
      rw [ge_iff_le, UInt64.le_iff_toNat_le, hprice]
      exact hpays
    dsimp only at h
    rw [if_pos henough] at h
    cases h
    exact ⟨hfee, hspent⟩

theorem leavesNothing_iff_sweepable (sample : OutputCoins W)
    (h : rotateSeedTransaction W coins answer oldKeystore store newKeystore fee =
      some (.ok result)) :
    LeavesNothing store result ↔ Sweepable W sample store fee := by
  obtain ⟨hfee, slate, pending, keystore', hcreate, hchange, hspent, hcreated, hpaid, hdest⟩ :=
    rotateSeedTransaction_ok h
  have hbalance := toNat_balance store
  have hamount := UInt64.toNat_sub_of_le _ _ hfee
  have htarget : store.balance - fee + fee = store.balance := UInt64.sub_add_cancel _ _
  rw [UInt64.le_iff_toNat_le] at hfee
  constructor
  · rintro ⟨hinputs, -, hvalue⟩
    -- the attempt that was taken
    obtain ⟨attempt, keystore₁, f, probe, -, hbuild, hcovers⟩ := createSlate_ok hcreate
    obtain ⟨selected, -, -, hselect, -⟩ := buildSlate_ok hbuild
    obtain ⟨hprice, hslate, -, hf, hselected, -, hsome⟩ := buildSlate_selected sample hselect hbuild
    -- it was made at the fee that was offered
    rw [hdest, hslate, hpaid, hf] at hvalue
    have hf_lt := f.toNat_lt
    obtain ⟨hsame, hfits⟩ : f.toNat = fee.toNat ∧ store.confirmedTotal < 2 ^ 64 := by omega
    obtain rfl := UInt64.toNat_inj.mp hsame
    have hnothing : ¬ 0 < totalValue selected - (store.balance - f + f) := by
      rw [← hsome, hchange]
      simp
    rw [htarget] at hselect hprice hnothing
    have hperm : (selected.map PlannedOutput.commitment).Perm
        (store.confirmed.map OwnedOutput.commitment) := by
      rwa [← hselected, ← hspent]
    have hlength : selected.length = store.confirmed.length := by simpa using hperm.length_eq
    refine ⟨⟨selected, hselect, hperm, ?_⟩, hfits, ?_⟩
    · obtain ⟨-, -, -, hcovered⟩ := selectFrom_ok hselect
      have hsub := UInt64.toNat_sub_of_le _ _ hcovered
      rw [UInt64.lt_iff_toNat_lt, UInt64.toNat_zero] at hnothing
      rw [UInt64.le_iff_toNat_le] at hcovered
      apply UInt64.toNat_inj.mp
      omega
    · rw [decide_eq_false hnothing, hlength] at hprice
      rw [← hprice]
      exact UInt64.le_iff_toNat_le.mp hcovers
  · rintro ⟨⟨selected, hselect, hperm, htotal⟩, hfits, hpays⟩
    have hlength : selected.length = store.confirmed.length := by simpa using hperm.length_eq
    have hnothing : ¬ 0 < totalValue selected - (store.balance - fee + fee) := by
      rw [htarget, htotal, UInt64.sub_self]
      exact UInt64.lt_irrefl 0
    obtain ⟨hf, hselected⟩ := createSlate_at_once sample (htarget.symm ▸ hselect)
      (by rwa [decide_eq_false hnothing, hlength]) hcreate
    obtain ⟨attempt, keystore₁, f, probe, -, hbuild, -⟩ := createSlate_ok hcreate
    obtain ⟨selected', blindings', made', hselect', -, -, hslate, -⟩ := buildSlate_ok hbuild
    refine ⟨?_, hcreated, ?_⟩
    · rwa [hspent, hselected]
    · rw [hdest, hpaid, hf, hslate]
      dsimp only
      omega

/-- **What stays behind.** When a rotation succeeds, it leaves nothing if and only if the ledger could be
swept at the fee that was offered. In a ledger without duplicates this means: the confirmed outputs come
first in the order of the selection. -/
theorem leavesNothing_iff (sample : OutputCoins W)
    (h : rotateSeedTransaction W coins answer oldKeystore store newKeystore fee =
      some (.ok result)) :
    (LeavesNothing store result ↔ Sweepable W sample store fee) ∧
    (store.commitments.Nodup →
      (LeavesNothing store result ↔ ConfirmedFirst store ∧ store.confirmedTotal < 2 ^ 64 ∧
        planPrice W sample store.confirmed.length false ≤ fee.toNat)) := by
  have hiff := leavesNothing_iff_sweepable sample h
  exact ⟨hiff, fun hnodup => hiff.trans (sweepable_iff sample hnodup)⟩

end Rotation

namespace Devnet

def owned (store : WalletStore crypto) (index : UInt32) (value : UInt64) (status : OutputStatus) :
    WalletStore crypto :=
  store.addOutput index value (Commitment.new value (payer.deriveBlinding wallet index)) status

/-- Confirmed outputs of 100 and 50. -/
def settledStore : WalletStore crypto :=
  owned (owned .new 0 100 .confirmed) 1 50 .confirmed

/-- And one of 150 that is pending. -/
def unsettledStore : WalletStore crypto :=
  owned settledStore 2 150 .pending

/-- The rotation, to a second seed and at a fee of five. -/
def rotation (store : WalletStore crypto) : Option (Except RotateError (RotateSeedResult crypto)) :=
  rotateSeedTransaction wallet (fun _ => slateCoins 5) ⟨coins, (6 : BitVec 256)⟩ payer store
    ⟨natBytes 2, 0⟩ 5

/-- The pending output pays for both confirmed ones, and these stay. -/
theorem rotation_leaves_confirmed :
    ∃ result, rotation unsettledStore = some (.ok result) ∧ ¬ LeavesNothing unsettledStore result := by
  have hrun : (rotation unsettledStore).map (fun r =>
      match r with
      | .ok result => decide (result.transaction.spent.length = 1)
      | .error _ => false) = some true := by
    decide +kernel
  obtain ⟨r, hr, hspent⟩ := Option.map_eq_some_iff.mp hrun
  cases r with
  | error e => cases hspent
  | ok result =>
      refine ⟨result, hr, ?_⟩
      intro hnothing
      have hlength := hnothing.inputs.length_eq
      rw [of_decide_eq_true hspent] at hlength
      exact absurd hlength (by decide +kernel)

/-- Without it everything goes. -/
theorem rotation_leaves_nothing :
    ∃ result, rotation settledStore = some (.ok result) ∧ LeavesNothing settledStore result := by
  have hrun : (rotation settledStore).map (fun r => r.isOk) = some true := by
    decide +kernel
  obtain ⟨r, hr, hok⟩ := Option.map_eq_some_iff.mp hrun
  cases r with
  | error e => cases hok
  | ok result =>
      have hfirst : ConfirmedFirst settledStore := by
        refine ⟨⟨settledStore.spendableIncludingPending, [], by simp, ?_, fun _ h => nomatch h⟩, ?_⟩
        · decide +kernel
        · decide +kernel
      refine ⟨result, hr, ((leavesNothing_iff coins hr).2 (by decide +kernel)).mpr
        ⟨hfirst, by decide +kernel, by decide +kernel⟩⟩

end Devnet

end Haze
