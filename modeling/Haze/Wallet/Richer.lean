import Haze.Wallet.Exact

/-!
# More money

An output that is worth more covers at least as much, and as soon. It may still break a payment: where
the outputs taken were worth exactly what was needed, a little more asks for a change output, which the
fee has to pay for, and there may not be enough for that. Where there was change to begin with, more money
never asks for a higher fee.
-/

namespace Haze

open Cover

variable {P : Crypto} {W : WalletCrypto P}

/-! ## Prices go up with the size

The price is a rounded quotient of the size, at least the minimum fee. All sizes here are far below the
limit, so it can be compared in natural numbers. -/

theorem toNat_divCeil (a : UInt64) : (divCeil a 1000).toNat = (a.toNat + 999) / 1000 := by
  have hlt := a.toNat_lt
  unfold divCeil
  split
  next hpos =>
    rw [gt_iff_lt, UInt64.lt_iff_toNat_lt, UInt64.toNat_zero, UInt64.toNat_mod] at hpos
    rw [UInt64.toNat_add, UInt64.toNat_div]
    have hpos : 0 < a.toNat % 1000 := hpos
    show (a.toNat / 1000 + 1) % 2 ^ 64 = _
    omega
  next hzero =>
    rw [gt_iff_lt, UInt64.lt_iff_toNat_lt, UInt64.toNat_zero, UInt64.toNat_mod] at hzero
    rw [UInt64.toNat_div]
    have hzero : ¬ 0 < a.toNat % 1000 := hzero
    show a.toNat / 1000 = _
    omega

theorem toNat_max (a b : UInt64) : (max a b).toNat = max a.toNat b.toNat := by
  show (if a ≤ b then b else a).toNat = _
  split
  next h => rw [Nat.max_eq_right (UInt64.le_iff_toNat_le.mp h)]
  next h => rw [Nat.max_eq_left (Nat.le_of_lt (UInt64.lt_iff_toNat_lt.mp (UInt64.not_le.mp h)))]

section Price

variable {sample : OutputCoins W} {k k' : ℕ}

theorem planSize_mono (sample : OutputCoins W) (h : k ≤ k') (change : Bool) :
    planSize W sample k change ≤ planSize W sample k' true := by
  unfold planSize
  cases change
  · simp only [Bool.false_eq_true, if_false, if_true]
    omega
  · simp only [if_true]
    omega

theorem planPrice_eq {change : Bool} (h : 5 * planSize W sample k change < 2 ^ 64) :
    planPrice W sample k change = max ((5 * planSize W sample k change + 999) / 1000) 5 := by
  have hmul : (feePerKb * UInt64.ofNat (planSize W sample k change)).toNat =
      5 * planSize W sample k change := by
    have hofNat : (UInt64.ofNat (planSize W sample k change)).toNat = planSize W sample k change := by
      rw [UInt64.toNat_ofNat']
      exact Nat.mod_eq_of_lt (by omega)
    rw [UInt64.toNat_mul, hofNat, show feePerKb.toNat = 5 from rfl, Nat.mod_eq_of_lt h]
  rw [planPrice, toNat_max, toNat_divCeil, hmul]
  rfl

/-- Fewer inputs, with or without change, cost no more. -/
theorem planPrice_mono (h : k ≤ k') (hsize : 5 * planSize W sample k' true < 2 ^ 64) (change : Bool) :
    planPrice W sample k change ≤ planPrice W sample k' true := by
  have hmono := planSize_mono sample h change
  rw [planPrice_eq hsize, planPrice_eq (by omega)]
  omega

end Price

/-! ## A ledger with one larger output

One confirmed output gets a value that is at least as high, and with it another commitment. In the sorted
list this may move it forward, so the two ledgers are compared by their sums of the first few values and not
place by place. -/

/-- One confirmed output is worth more. -/
structure Raised (store store' : WalletStore P) : Prop where
  raised : ∃ before o after value commitment, o.status = .confirmed ∧ o.value ≤ value ∧
    store.outputs = before ++ o :: after ∧
    store'.outputs = before ++ { o with value := value, commitment := commitment } :: after

theorem Raised.dominates {store store' : WalletStore P} (h : Raised store store') :
    Dominates store'.spendableValues store.spendableValues := by
  obtain ⟨before, o, after, value, commitment, hstatus, hle, houtputs, houtputs'⟩ := h.raised
  have hperm := store.spendableValues_perm
  have hperm' := store'.spendableValues_perm
  simp only [houtputs, List.filter_append, List.filter_cons, hstatus, decide_true, Bool.true_or,
    if_true, List.map_append, List.map_cons] at hperm
  simp only [houtputs', List.filter_append, List.filter_cons, hstatus, decide_true, Bool.true_or,
    if_true, List.map_append, List.map_cons] at hperm'
  exact dominates_of_perm (UInt64.le_iff_toNat_le.mp hle) store'.pairwise_spendableValues
    (hperm.trans List.perm_middle) (hperm'.trans List.perm_middle)

section Loop

variable {α : Type}
  {build : ℕ → Keystore → UInt64 → Option (Except PlanError (α × Transaction P) × Keystore)}
  {store : WalletStore P} {amount : UInt64} {sample : OutputCoins W}
  {made : α → List (PlannedOutput P) → UInt64 → Prop}

/-- If no fee up to a limit is priced above it, the loop stays below the limit: it ends with a result, or
it gives up because each of its attempts has raised the fee. -/
theorem Attempts.bounded (h : Attempts W sample store amount build made) (giveUp : UInt64 → PlanError)
    {limit : ℕ} (hrange : InRange store amount limit)
    (hbound : ∀ g ≤ limit, ∃ p ≤ limit,
      required (planPrice W sample) store.spendableValues (amount.toNat + g) = some p)
    (n : ℕ) (keystore : Keystore) {fee : UInt64} (hfee : fee.toNat ≤ limit) :
    (∃ built keystore' selected f, f.toNat ≤ limit ∧ made built selected f ∧
      fitFee W build giveUp n keystore fee = some (.ok built, keystore')) ∨
    ∃ g keystore', g.toNat ≤ limit ∧ fee.toNat + n ≤ g.toNat ∧
      fitFee W build giveUp n keystore fee = some (.error (giveUp g), keystore') := by
  induction n generalizing keystore fee with
  | zero => exact .inr ⟨fee, keystore, hfee, Nat.le_refl _, rfl⟩
  | succ n ih =>
      obtain ⟨selected, hselect, hrequired⟩ := hrange.attempt sample hfee
      obtain ⟨built, tx, keystore₁, hbuild, hprice, hmade⟩ := h.ok n keystore fee selected hselect
      rw [fitFee, hbuild]
      dsimp only
      by_cases henough : fee ≥ requiredFee (Transaction.serializedSize W) tx
      · rw [if_pos henough]
        exact .inl ⟨built, keystore₁, selected, fee, hfee, hmade, rfl⟩
      · rw [if_neg henough]
        have hraised : fee.toNat < (requiredFee (Transaction.serializedSize W) tx).toNat :=
          UInt64.not_le.mp henough
        have hnext : (requiredFee (Transaction.serializedSize W) tx).toNat ≤ limit := by
          obtain ⟨p, hp, hrequired'⟩ := hbound fee.toNat hfee
          rw [hprice]
          rwa [Option.some.inj (hrequired.symm.trans hrequired')]
        -- the fee goes up at each attempt, so that running out of them puts it far above the first
        rcases ih keystore₁ hnext with hok | ⟨g, keystore', hg, hmany, hrun⟩
        · exact .inl hok
        · exact .inr ⟨g, keystore', hg, by omega, hrun⟩

end Loop

/-! ## Payments from the larger ledger

Suppose the smaller ledger has paid and had change to begin with. Then a prefix of the larger one covers the
same fees and is not longer, so that none of its prices is above the fee that was paid. -/

section Richer

variable {store store' : WalletStore P}

theorem Raised.holdsSecret (h : Raised store store') (hsecret : HoldsSecret W store') :
    HoldsSecret W store := by
  obtain ⟨before, o, after, value, commitment, -, -, houtputs, houtputs'⟩ := h.raised
  intro x hx hindex
  rw [houtputs] at hx
  rcases List.mem_append.mp hx with hx | hx
  · exact hsecret x (houtputs' ▸ List.mem_append_left _ hx) hindex
  · rcases List.mem_cons.mp hx with rfl | hx
    · have hmem : { x with value := value, commitment := commitment } ∈ store'.outputs := by
        rw [houtputs']
        exact List.mem_append_right _ List.mem_cons_self
      exact hsecret _ hmem hindex
    · exact hsecret x (houtputs' ▸ List.mem_append_right _ (List.mem_cons_of_mem _ hx)) hindex

theorem InRange.of_total {amount : UInt64} {fee : ℕ} (htarget : amount.toNat + fee < 2 ^ 64)
    (htotal : store.spendableValues.sum < 2 ^ 64)
    (hcovered : ∃ k, cover store.spendableValues (amount.toNat + fee) = some k) :
    InRange store amount fee := by
  obtain ⟨k, hcover⟩ := hcovered
  refine ⟨htarget, k, hcover, lt_of_le_of_lt ?_ htotal⟩
  exact (List.take_sublist k _).sum_le_sum fun _ _ => Nat.zero_le _

theorem length_selected_le {target : UInt64} {selected : List (PlannedOutput P)}
    (h : selectSpendable store target = .ok selected) : selected.length ≤ store.outputs.length := by
  obtain ⟨taken, htaken, rfl, -⟩ := selectFrom_ok h
  rw [List.length_map]
  refine htaken.length_le.trans ?_
  rw [WalletStore.spendableIncludingPending, WalletStore.byValue, List.length_insertionSort]
  exact List.length_filter_le _ _

/-- **More money.** A payment that left change is still made when a confirmed output is worth more, and
costs no more; unless the planner gives up after sixteen attempts, which takes a fee sixteen above the one
that was offered. Nothing overflows here: neither the target, nor what the larger ledger is worth, nor the
size. -/
theorem planSend_richer {coins coins' : ℕ → SendCoins W} {keystore keystore₁ : Keystore}
    {amount fee : UInt64} {plan : SendPlan P} (hraised : Raised store store')
    (hsecret : HoldsSecret W store')
    (hplan : planSend W coins keystore store amount fee = some (.ok plan, keystore₁))
    (hchange : plan.change.isSome) (htarget : amount.toNat + (txFee plan.transaction).toNat < 2 ^ 64)
    (htotal : store'.spendableValues.sum < 2 ^ 64)
    (hsize : 5 * planSize W (coins 0).dest store.outputs.length true < 2 ^ 64) :
    ∃ r keystore', planSend W coins' keystore store' amount fee = some (r, keystore') ∧
      ((∃ plan', r = .ok plan' ∧ txFee plan'.transaction ≤ txFee plan.transaction) ∨
        ∃ g, fee.toNat + maxFeeFitAttempts ≤ g.toNat ∧ g ≤ txFee plan.transaction ∧
          r = .error (.insufficientBalance (store'.balance + store'.pendingBalance) (amount + g))) := by
  have hdom := hraised.dominates
  -- the payment that was made
  obtain ⟨r, keystore₂, hrun, -, hr⟩ := (attempts_planSend (coins 0).dest amount
    (hraised.holdsSecret hsecret) coins).result
      (fun fee => .insufficientBalance (store.balance + store.pendingBalance) (amount + fee))
      maxFeeFitAttempts keystore fee
  cases hrun.symm.trans hplan
  obtain ⟨selected, f, hfee, ⟨-, hf, -, hsome⟩, hselect, hcovers, -⟩ := hr plan rfl
  rw [hf] at htarget ⊢
  rw [decide_eq_true (hsome.mp hchange)] at hcovers
  have hfits : (selected.map fun o => o.value.toNat).sum < 2 ^ 64 := by
    rw [values_selected hselect]
    refine ((hdom _).trans ?_).trans_lt htotal
    exact (List.take_sublist _ _).sum_le_sum fun _ _ => Nat.zero_le _
  have hcover := cover_of_selectSpendable hselect hfits
  rw [toNat_target htarget] at hcover
  -- no fee up to its fee is priced above it
  have hprices : ∀ k ≤ selected.length, ∀ change,
      planPrice W (coins 0).dest k change ≤ f.toNat := by
    intro k hk change
    have hmost := planSize_mono (coins 0).dest (length_selected_le hselect) true
    exact (planPrice_mono hk (by omega) change).trans hcovers
  have hrange : InRange store' amount f.toNat :=
    .of_total htarget htotal ((cover_of_dominates hdom (Nat.le_refl _) hcover).imp fun _ h => h.2)
  have hbound : ∀ g ≤ f.toNat, ∃ p ≤ f.toNat, required (planPrice W (coins 0).dest)
      store'.spendableValues (amount.toNat + g) = some p :=
    fun g hg => required_of_dominates hdom (Nat.add_le_add_left hg _) hcover hprices
  rcases (attempts_planSend (coins 0).dest amount hsecret coins').bounded
      (fun fee => .insufficientBalance (store'.balance + store'.pendingBalance) (amount + fee))
      hrange hbound maxFeeFitAttempts keystore hfee with
    ⟨plan', keystore', selected', f', hf', ⟨-, hpaid, -⟩, hok⟩ | ⟨g, keystore', hg, hmany, hgaveUp⟩
  · exact ⟨.ok plan', keystore', hok, .inl ⟨plan', rfl, hpaid ▸ hf'⟩⟩
  · exact ⟨_, keystore', hgaveUp, .inr ⟨g, hmany, hg, rfl⟩⟩

end Richer

namespace Devnet

/-- One confirmed output. -/
def oneOutput (value : UInt64) : WalletStore crypto :=
  WalletStore.new.addOutput 0 value (Commitment.new value (payer.deriveBlinding wallet 0)) .confirmed

theorem oneOutput_raised {value value' : UInt64} (h : value ≤ value') :
    Raised (oneOutput value) (oneOutput value') :=
  ⟨[], _, [], value', _, rfl, h, rfl, rfl⟩

/-- Whether a payment of 100 is made. -/
def sends (store : WalletStore crypto) : Option Bool :=
  (planSend wallet sendCoins payer store 100 5).map fun made => made.1.isOk

/-- 105 pay for 100 and a fee of five; with 106 there is change, and then the fee would be nine. -/
theorem planSend_needs_less :
    ∃ store store', Raised store store' ∧ sends store = some true ∧ sends store' = some false :=
  ⟨oneOutput 105, oneOutput 106, oneOutput_raised (by decide), by decide +kernel, by decide +kernel⟩

/-- From 120 there is change, and from 130 too. -/
theorem planSend_oneOutput_richer :
    ∃ plan keystore₁, planSend wallet sendCoins payer (oneOutput 120) 100 5 =
        some (.ok plan, keystore₁) ∧ plan.change.isSome ∧
      ∃ r keystore', planSend wallet sendCoins payer (oneOutput 130) 100 5 = some (r, keystore') ∧
        ((∃ plan', r = .ok plan' ∧ txFee plan'.transaction ≤ txFee plan.transaction) ∨
          ∃ g, (5 : UInt64).toNat + maxFeeFitAttempts ≤ g.toNat ∧ g ≤ txFee plan.transaction ∧
            r = .error (.insufficientBalance
              ((oneOutput 130).balance + (oneOutput 130).pendingBalance) (100 + g))) := by
  have hrun : (planSend wallet sendCoins payer (oneOutput 120) 100 5).map (fun made =>
      match made.1 with
      | .ok plan => decide (plan.change.isSome ∧ txFee plan.transaction = 9)
      | .error _ => false) = some true := by
    decide +kernel
  obtain ⟨⟨made, keystore₁⟩, hmade, hplan⟩ := Option.map_eq_some_iff.mp hrun
  cases made with
  | error e => cases hplan
  | ok plan =>
      obtain ⟨hchange, hfee⟩ := of_decide_eq_true hplan
      refine ⟨plan, keystore₁, hmade, hchange, ?_⟩
      refine planSend_richer (oneOutput_raised (by decide)) (fun _ _ _ => rfl) hmade hchange ?_
        (by decide +kernel) (by decide +kernel)
      rw [hfee]
      decide

end Devnet

end Haze
