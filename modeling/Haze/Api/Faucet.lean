import Haze.Wallet.Exact
import Haze.Wallet.Reserve

/-!
# Sponsoring a fee and taking it back (`api/src/faucet.rs`)

The faucet marks the inputs of a payment as spent and adds its change when it builds the payment. If the
payment is then not queued, there is no copy to go back to: the marks are looked up by commitment and
status, and the change by index and status. That finds what was changed and nothing else, as the change has
an index of its own.

Two things could be in the way, and neither comes up in a faucet. Totals of values are `u64` and would wrap
around, but a faucet starts with the treasury and adds no more than its own change, so what it has is below
the supply. And the two reserved indices belong to outputs that no keystore gave an index to; the next index
of a keystore gets there after `2 ^ 32` allocations. Under these two conditions every payment is exact
(`sponsorsExactly_of_fits`); what holds for any ledger at all is `sponsorsExactly_iff`.
-/

namespace Haze

open Cover

variable {P : Crypto} {W : WalletCrypto P}

/-- The part of the state that a sponsored payment reads and changes. -/
structure FaucetState (P : Crypto) where
  keystore : Keystore
  store : WalletStore P

namespace FaucetState

/-- `build_sponsored_fee_payment`. The selection can fail, and comes before any change. -/
def buildSponsoredFeePayment (W : WalletCrypto P) (coins : SponsorCoins W) (fee : UInt64)
    (f : FaucetState P) : Option (Except PlanError (SponsoredPayment P) × FaucetState P) :=
  (Haze.buildSponsoredFeePayment W coins f.keystore f.store fee).map fun
    | .ok (payment, keystore, store) => (.ok payment, ⟨keystore, store⟩)
    | .error e => (.error e, f)

/-- `revert_fee_payment`. -/
def revertFeePayment (payment : SponsoredPayment P) (f : FaucetState P) : FaucetState P :=
  { f with store := Haze.revertFeePayment f.store payment }

/-- The outputs that a payment has added to the ledger. -/
def added (f f' : FaucetState P) : List (PlannedOutput P) :=
  (f'.store.outputs.drop f.store.outputs.length).map OwnedOutput.planned

/-- The payment is valid and pays the fee, in exact numbers: the confirmed outputs it spends are worth the
fee and what it adds to the ledger. And it can be taken back. -/
structure Sponsored (f f' : FaucetState P) (fee : UInt64) (payment : SponsoredPayment P) : Prop where
  valid : payment.transaction.validate = true
  kernelFee : payment.transaction.kernels.map TxKernel.fee = [fee]
  pays : ∃ taken, taken <+: f.store.spendable ∧
    payment.transaction.spent = taken.map OwnedOutput.commitment ∧
    payment.transaction.created = (f.added f').map PlannedOutput.commitment ∧
    (taken.map fun o => o.value.toNat).sum =
      fee.toNat + ((f.added f').map fun o => o.value.toNat).sum
  restored : (f'.revertFeePayment payment).store = f.store

/-- A payment of the fee is `Sponsored` if it is built, there is no panic, and an error changes nothing. -/
def SponsorsExactly (W : WalletCrypto P) (coins : SponsorCoins W) (fee : UInt64) (f : FaucetState P) :
    Prop :=
  ∃ r f', f.buildSponsoredFeePayment W coins fee = some (r, f') ∧
    (∀ payment, r = .ok payment → Sponsored f f' fee payment) ∧
    ∀ e, r = .error e → f'.store = f.store

/-- The ledger has the outputs of the keystore, each once, below the next index. -/
structure Regular (W : WalletCrypto P) (f : FaucetState P) : Prop where
  distinct : f.store.commitments.Nodup
  wellFormed : WellFormed W f.keystore f.store
  next : ∀ o ∈ f.store.outputs, o.index = genesisIndex ∨ o.index = faucetIndex ∨
    o.index < f.keystore.nextIndex

end FaucetState

/-- The confirmed values, the largest first. -/
def WalletStore.confirmedValues (store : WalletStore P) : List ℕ :=
  store.spendable.map fun o => o.value.toNat

/-! ## Selection

The code takes confirmed outputs, largest first, until a running `u64` total covers the fee. The running
total can wrap, and then the selection goes on or stops at the wrong place; the lemmas say so with sums of
the values. -/

section Selection

variable {store : WalletStore P} {fee : UInt64} {selected : List (PlannedOutput P)}

theorem toNat_totalValue_take (store : WalletStore P) (k : ℕ) :
    (totalValue ((store.spendable.take k).map OwnedOutput.planned)).toNat =
      (store.confirmedValues.take k).sum % 2 ^ 64 := by
  rw [totalValue, toNat_sum, WalletStore.confirmedValues, ← List.map_take, List.map_map, List.map_map]
  rfl

/-- The selection fails exactly if the total falls short of the fee wherever it stops, overflow included. -/
theorem select_fails_iff : (∃ e, selectSpendableConfirmedOnly store fee = .error e) ↔
    ∀ k, (store.confirmedValues.take k).sum % 2 ^ 64 < fee.toNat := by
  have hshort : (takeUntil fee 0 store.spendable).2 < fee ↔
      ∀ k, (store.confirmedValues.take k).sum % 2 ^ 64 < fee.toNat := by
    rw [takeUntil_lt_iff]
    simp only [zero_add, UInt64.lt_iff_toNat_lt, toNat_totalValue_take]
  rw [← hshort, selectSpendableConfirmedOnly, selectFrom]
  dsimp only
  split
  next h => exact iff_of_true ⟨_, rfl⟩ h
  next h =>
    refine iff_of_false ?_ h
    rintro ⟨e, he⟩
    cases he

theorem sum_confirmedValues_take (h : selectSpendableConfirmedOnly store fee = .ok selected) :
    (selected.map fun o => o.value.toNat).sum = (store.confirmedValues.take selected.length).sum := by
  rw [values_selectFrom h]
  rfl

/-- What is selected stays below the limit exactly if something that covers the fee does. -/
theorem selected_fits_iff (h : selectSpendableConfirmedOnly store fee = .ok selected) :
    (selected.map fun o => o.value.toNat).sum < 2 ^ 64 ↔
      ∃ k, fee.toNat ≤ (store.confirmedValues.take k).sum ∧
        (store.confirmedValues.take k).sum < 2 ^ 64 := by
  constructor
  · intro hfits
    obtain ⟨-, -, -, hcovered⟩ := selectFrom_ok h
    rw [UInt64.le_iff_toNat_le, toNat_totalValue hfits] at hcovered
    rw [sum_confirmedValues_take h] at hcovered hfits
    exact ⟨selected.length, hcovered, hfits⟩
  · rintro ⟨k, hcovered, hfits⟩
    obtain ⟨j, hj, hcover⟩ := exists_cover hcovered
    have hfits' := (sum_take_mono hj).trans_lt hfits
    obtain rfl := Except.ok.inj (h.symm.trans (selectFrom_of_cover hcover hfits'))
    rw [List.map_map]
    rw [WalletStore.confirmedValues, ← List.map_take] at hfits'
    exact hfits'

/-- Nothing is left over exactly if the fee is a total of largest values. -/
theorem no_change_iff (h : selectSpendableConfirmedOnly store fee = .ok selected)
    (hfits : (selected.map fun o => o.value.toNat).sum < 2 ^ 64) :
    totalValue selected - fee = 0 ↔ ∃ k, (store.confirmedValues.take k).sum = fee.toNat := by
  have hbalance := selectFrom_balances h hfits
  rw [sum_confirmedValues_take h] at hbalance
  rw [← UInt64.toNat_inj, UInt64.toNat_zero]
  constructor
  · intro hzero
    exact ⟨selected.length, by omega⟩
  · rintro ⟨k, hk⟩
    -- the selection stops at the first total that reaches the fee
    obtain ⟨-, -, hleast⟩ := cover_eq_some_iff.mp (cover_of_selectFrom h hfits)
    have hle : selected.length ≤ k := by
      by_contra hlt
      exact absurd hk.ge (Nat.not_le.mpr (hleast k (Nat.lt_of_not_le hlt)))
    have hmono : (store.confirmedValues.take selected.length).sum ≤ _ := sum_take_mono hle
    omega

end Selection

/-! ## What a payment leaves behind

A payment spends what was selected and adds at most one change output, pending, under the next index. -/

section Built

variable {coins : SponsorCoins W} {keystore keystore' : Keystore} {store store' : WalletStore P}
  {fee : UInt64} {payment : SponsoredPayment P}

/-- What is built of the outputs selected. -/
theorem built_of_selected {selected : List (PlannedOutput P)}
    (hselected : selectSpendableConfirmedOnly store fee = .ok selected)
    (h : Haze.buildSponsoredFeePayment W coins keystore store fee =
      some (.ok (payment, keystore', store'))) :
    let made := makeChange W coins.change keystore (totalValue selected - fee)
    (∃ blindings, inputBlindings W keystore selected = some blindings ∧
      payment.transaction = ⟨plannedInputs selected, (made.1.map ChangeInfo.output).toList,
        [⟨Commitment.new 0 (blindings.sum - made.2.1), fee,
          Signature.sign (toLeBytes 8 fee.toNat) (blindings.sum - made.2.1) coins.nonce⟩]⟩) ∧
    payment.spent = selected.map PlannedOutput.commitment ∧
    payment.changeIndex = made.1.map ChangeInfo.index ∧
    store' = (store.addPending (made.1.map ChangeInfo.planned).toList).markAllSpent payment.spent := by
  obtain ⟨selected', blindings, made, hselected', hblindings, rfl, htx, hspent, hindex, hstore⟩ :=
    buildSponsoredFeePayment_ok h
  obtain rfl := Except.ok.inj (hselected.symm.trans hselected')
  exact ⟨⟨blindings, hblindings, htx⟩, hspent, hindex, hstore⟩

/-- What is spent are different confirmed outputs. -/
theorem confirmed_of_mem_spent (hdistinct : store.commitments.Nodup)
    (h : Haze.buildSponsoredFeePayment W coins keystore store fee =
      some (.ok (payment, keystore', store'))) :
    payment.spent.Nodup ∧ ∀ c ∈ payment.spent, c ∈ store.commitments ∧
      store.statusOf c = some .confirmed := by
  obtain ⟨selected, -, -, hselected, -, -, -, hspent, -⟩ := buildSponsoredFeePayment_ok h
  obtain ⟨taken, htaken, rfl, -⟩ := selectFrom_ok hselected
  -- the inputs of the payment are the commitments of the outputs that were taken
  have hspent : payment.spent = taken.map OwnedOutput.commitment := by
    rw [hspent, List.map_map]
    rfl
  have hmem : ∀ o ∈ taken, o ∈ store.outputs ∧ o.status = .confirmed :=
    fun o ho => WalletStore.mem_spendable.mp (htaken.subset ho)
  rw [hspent]
  constructor
  -- sorting by value keeps each output once
  · have hspendable : store.spendable.Nodup :=
      (List.perm_insertionSort _ _).nodup_iff.mpr (hdistinct.of_map _ |>.filter _)
    exact WalletStore.nodup_map_commitment hdistinct (hspendable.sublist htaken.sublist)
      fun o ho => (hmem o ho).1
  · intro c hc
    obtain ⟨o, ho, rfl⟩ := List.mem_map.mp hc
    refine ⟨List.mem_map_of_mem (hmem o ho).1, ?_⟩
    exact (WalletStore.statusOf_of_mem hdistinct (hmem o ho).1).trans (congrArg some (hmem o ho).2)

/-- The marks come off, and what is left to take back is the change. -/
theorem unmarked (hdistinct : store.commitments.Nodup)
    {selected : List (PlannedOutput P)} (hselected : selectSpendableConfirmedOnly store fee = .ok selected)
    (h : Haze.buildSponsoredFeePayment W coins keystore store fee =
      some (.ok (payment, keystore', store'))) :
    let change := (makeChange W coins.change keystore (totalValue selected - fee)).1
    payment.spent.foldl WalletStore.unmarkSpent store' =
        store.addPending (change.map ChangeInfo.planned).toList ∧
      payment.changeIndex = change.map ChangeInfo.index := by
  obtain ⟨hnodup, hconfirmed⟩ := confirmed_of_mem_spent hdistinct h
  obtain ⟨-, -, hindex, rfl⟩ := built_of_selected hselected h
  refine ⟨?_, hindex⟩
  apply WalletStore.foldl_unmarkSpent_markAllSpent hnodup
  intro c hc
  obtain ⟨hmem, hstatus⟩ := hconfirmed c hc
  rw [WalletStore.statusOf_addPending_of_mem hmem, hstatus]

/-- **Taking a payment back** restores the ledger exactly if there is no change, or no pending output had
the index of the change. -/
theorem revertFeePayment_eq_iff (hdistinct : store.commitments.Nodup)
    {selected : List (PlannedOutput P)} (hselected : selectSpendableConfirmedOnly store fee = .ok selected)
    (h : Haze.buildSponsoredFeePayment W coins keystore store fee =
      some (.ok (payment, keystore', store'))) :
    Haze.revertFeePayment store' payment = store ↔
      totalValue selected - fee = 0 ∨
        ∀ o ∈ store.outputs, o.status = .pending → o.index ≠ keystore.nextIndex := by
  obtain ⟨hunmarked, hindex⟩ := unmarked hdistinct hselected h
  unfold Haze.revertFeePayment
  dsimp only
  rw [hunmarked, hindex]
  by_cases hchange : totalValue selected - fee = 0
  · rw [hchange]
    exact iff_of_true rfl (.inl rfl)
  · have hpos : totalValue selected - fee > 0 := UInt64.pos_iff_ne_zero.mpr hchange
    rw [or_iff_right hchange, makeChange, if_pos hpos]
    exact WalletStore.removePendingOutput_addOutput_eq_iff

/-- The ledger has the change behind its old entries. -/
theorem added_eq {selected : List (PlannedOutput P)}
    (hselected : selectSpendableConfirmedOnly store fee = .ok selected)
    (h : Haze.buildSponsoredFeePayment W coins keystore store fee =
      some (.ok (payment, keystore', store'))) :
    FaucetState.added ⟨keystore, store⟩ ⟨keystore', store'⟩ =
      ((makeChange W coins.change keystore (totalValue selected - fee)).1.map ChangeInfo.planned).toList := by
  obtain ⟨-, -, -, rfl⟩ := built_of_selected hselected h
  unfold FaucetState.added
  rw [List.map_drop, WalletStore.planned_markAllSpent, WalletStore.planned_addPending]
  apply List.drop_left'
  rw [List.length_map]

end Built

/-! ## When a payment can be sponsored and taken back

`revert_fee_payment` removes the pending outputs that have the change index. When the payment made no
change, the index it removes by is still the next one, and it must not hit an output that was there before.
-/

namespace FaucetState

/-- The selection comes to nothing, or it covers the fee before its total reaches the limit, and with change
only while no pending output has the next index. -/
def Sponsorable (f : FaucetState P) (fee : UInt64) : Prop :=
  (∀ k, (f.store.confirmedValues.take k).sum % 2 ^ 64 < fee.toNat) ∨
    (∃ k, fee.toNat ≤ (f.store.confirmedValues.take k).sum ∧
        (f.store.confirmedValues.take k).sum < 2 ^ 64) ∧
      ((∃ k, (f.store.confirmedValues.take k).sum = fee.toNat) ∨
        ∀ o ∈ f.store.outputs, o.status = .pending → o.index ≠ f.keystore.nextIndex)

section

variable {coins : SponsorCoins W} {f : FaucetState P} {keystore' : Keystore} {store' : WalletStore P}
  {fee : UInt64} {payment : SponsoredPayment P} {selected : List (PlannedOutput P)}

theorem validate_sponsored (hstore : WellFormed W f.keystore f.store)
    (hselected : selectSpendableConfirmedOnly f.store fee = .ok selected)
    (hfits : (selected.map fun o => o.value.toNat).sum < 2 ^ 64)
    (h : Haze.buildSponsoredFeePayment W coins f.keystore f.store fee =
      some (.ok (payment, keystore', store'))) :
    payment.transaction.validate = true := by
  obtain ⟨⟨blindings, hblindings, htx⟩, -⟩ := built_of_selected hselected h
  have hopen : ∀ o ∈ selected, ∃ r, blindingFor W f.keystore o.index = some r ∧
      o.commitment = Commitment.new o.value r := by
    obtain ⟨taken, htaken, rfl, -⟩ := selectFrom_ok hselected
    intro o ho
    obtain ⟨owned, howned, rfl⟩ := List.mem_map.mp ho
    exact hstore owned (WalletStore.mem_spendable.mp (htaken.subset howned)).1
  rw [htx]
  apply validate_selected hblindings hopen
  · intro o ho
    obtain ⟨change, hmem, rfl⟩ := Option.map_eq_some_iff.mp (Option.mem_toList.mp ho)
    exact verify_makeChange _ _ _ change hmem
  · exact sumPoints_makeChange _ _ _
  · rw [Nat.add_comm]
    exact selectFrom_balances hselected hfits

/-- In exact numbers the payment balances exactly if its total has not wrapped. -/
theorem pays_iff (hselected : selectSpendableConfirmedOnly f.store fee = .ok selected)
    (h : Haze.buildSponsoredFeePayment W coins f.keystore f.store fee =
      some (.ok (payment, keystore', store'))) :
    (∃ taken, taken <+: f.store.spendable ∧
      payment.transaction.spent = taken.map OwnedOutput.commitment ∧
      payment.transaction.created =
        (f.added ⟨keystore', store'⟩).map PlannedOutput.commitment ∧
      (taken.map fun o => o.value.toNat).sum =
        fee.toNat + ((f.added ⟨keystore', store'⟩).map fun o => o.value.toNat).sum) ↔
    (selected.map fun o => o.value.toNat).sum < 2 ^ 64 := by
  have hadded : f.added ⟨keystore', store'⟩ = _ := added_eq hselected h
  have hspent := spent_buildSponsoredFeePayment h
  obtain ⟨⟨blindings, -, htx⟩, hspent', -⟩ := built_of_selected hselected h
  -- the change is worth what is left over
  have hvalue : ((f.added ⟨keystore', store'⟩).map fun o => o.value.toNat).sum =
      (totalValue selected - fee).toNat := by
    rw [hadded]
    have hmade := value_makeChange (W := W) coins.change f.keystore (totalValue selected - fee)
    cases hchange : (makeChange W coins.change f.keystore (totalValue selected - fee)).1 with
    | none =>
        rw [hchange] at hmade
        rw [← hmade]
        rfl
    | some change =>
        rw [hchange] at hmade
        rw [← hmade]
        simp [ChangeInfo.planned]
  rw [hvalue]
  constructor
  -- the inputs name their outputs, so what was taken is what was selected
  · rintro ⟨taken, htaken, htakenSpent, -, hsum⟩
    have hlength : selected.length = taken.length := by
      simpa using congrArg List.length ((hspent.trans hspent').symm.trans htakenSpent)
    have hvalues := values_selectFrom hselected
    rw [hlength, ← List.map_take, ← List.prefix_iff_eq_take.mp htaken] at hvalues
    obtain ⟨-, -, -, hcovered⟩ := selectFrom_ok hselected
    have hchange := UInt64.toNat_sub_of_le _ _ hcovered
    have htotal := (totalValue selected).toNat_lt
    rw [UInt64.le_iff_toNat_le] at hcovered
    rw [hvalues, hsum]
    omega
  · intro hfits
    obtain ⟨taken, htaken, rfl, -⟩ := selectFrom_ok hselected
    refine ⟨taken, htaken, ?_, ?_, ?_⟩
    · rw [hspent, hspent', List.map_map]
      rfl
    · rw [hadded, htx]
      cases (makeChange W coins.change f.keystore
        (totalValue (taken.map OwnedOutput.planned) - fee)).1 with
      | none => rfl
      | some change => rfl
    · have hbalance := selectFrom_balances hselected hfits
      rw [List.map_map] at hbalance
      exact hbalance

theorem sponsored_iff (hdistinct : f.store.commitments.Nodup)
    (hstore : WellFormed W f.keystore f.store)
    (hselected : selectSpendableConfirmedOnly f.store fee = .ok selected)
    (h : Haze.buildSponsoredFeePayment W coins f.keystore f.store fee =
      some (.ok (payment, keystore', store'))) :
    Sponsored f ⟨keystore', store'⟩ fee payment ↔ f.Sponsorable fee := by
  have hcovers : ¬ ∀ k, (f.store.confirmedValues.take k).sum % 2 ^ 64 < fee.toNat := by
    intro hfails
    obtain ⟨e, he⟩ := select_fails_iff.mpr hfails
    cases he.symm.trans hselected
  have hrestored := revertFeePayment_eq_iff hdistinct hselected h
  rw [Sponsorable, or_iff_right hcovers, ← selected_fits_iff hselected]
  constructor
  · rintro ⟨-, -, hpays, hback⟩
    have hfits := (pays_iff hselected h).mp hpays
    rw [← no_change_iff hselected hfits]
    exact ⟨hfits, hrestored.mp hback⟩
  · rintro ⟨hfits, hindex⟩
    rw [← no_change_iff hselected hfits] at hindex
    refine ⟨validate_sponsored hstore hselected hfits h, ?_, (pays_iff hselected h).mpr hfits,
      hrestored.mpr hindex⟩
    obtain ⟨⟨blindings, -, htx⟩, -⟩ := built_of_selected hselected h
    rw [htx]
    rfl

end

/-- Where the selection comes to something, there is a payment: every blinding factor is at hand. -/
theorem exists_sponsored {f : FaucetState P} {fee : UInt64} {selected : List (PlannedOutput P)}
    (coins : SponsorCoins W) (hstore : WellFormed W f.keystore f.store)
    (hselected : selectSpendableConfirmedOnly f.store fee = .ok selected) :
    ∃ payment keystore' store', Haze.buildSponsoredFeePayment W coins f.keystore f.store fee =
      some (.ok (payment, keystore', store')) := by
  obtain ⟨blindings, hblindings⟩ : ∃ blindings, inputBlindings W f.keystore selected = some blindings := by
    obtain ⟨taken, htaken, rfl, -⟩ := selectFrom_ok hselected
    apply inputBlindings_of_forall
    intro o ho
    obtain ⟨owned, howned, rfl⟩ := List.mem_map.mp ho
    obtain ⟨r, hr, -⟩ := hstore owned (WalletStore.mem_spendable.mp (htaken.subset howned)).1
    exact ⟨r, hr⟩
  unfold Haze.buildSponsoredFeePayment
  rw [hselected]
  dsimp only
  rw [hblindings]
  exact ⟨_, _, _, rfl⟩

/-- **A sponsored payment** is valid, pays the fee and can be taken back, and an error changes nothing,
exactly if it is `Sponsorable`. -/
theorem sponsorsExactly_iff {f : FaucetState P} (hregular : f.Regular W) (coins : SponsorCoins W)
    (fee : UInt64) : f.SponsorsExactly W coins fee ↔ f.Sponsorable fee := by
  cases hselect : selectSpendableConfirmedOnly f.store fee with
  | error e =>
      have hbuild : f.buildSponsoredFeePayment W coins fee = some (.error e, f) := by
        rw [buildSponsoredFeePayment, Haze.buildSponsoredFeePayment, hselect]
        rfl
      refine iff_of_true ⟨_, _, hbuild, ?_, fun _ _ => rfl⟩ (.inl (select_fails_iff.mp ⟨e, hselect⟩))
      rintro payment ⟨⟩
  | ok selected =>
      obtain ⟨payment, keystore', store', hmade⟩ := exists_sponsored coins hregular.wellFormed hselect
      have hbuild : f.buildSponsoredFeePayment W coins fee = some (.ok payment, ⟨keystore', store'⟩) := by
        rw [buildSponsoredFeePayment, hmade]
        rfl
      rw [← sponsored_iff hregular.distinct hregular.wellFormed hselect hmade]
      constructor
      · rintro ⟨r, f', hr, hsponsored, -⟩
        obtain ⟨rfl, rfl⟩ := Prod.mk.inj (Option.some.inj (hbuild.symm.trans hr))
        exact hsponsored payment rfl
      · intro hsponsored
        refine ⟨_, _, hbuild, ?_, ?_⟩
        · rintro _ ⟨⟩
          exact hsponsored
        · rintro e ⟨⟩

/-- **Sponsoring is exact.** With a total below `2 ^ 64` and no reserved index next, whatever the mixture of
confirmed, pending and spent outputs: a payment that is built is valid, pays the fee and can be taken back,
and an error changes nothing. -/
theorem sponsorsExactly_of_fits {f : FaucetState P} (hregular : f.Regular W)
    (hfits : f.store.confirmedValues.sum < 2 ^ 64) (hgenesis : f.keystore.nextIndex ≠ genesisIndex)
    (hfaucet : f.keystore.nextIndex ≠ faucetIndex) (coins : SponsorCoins W) (fee : UInt64) :
    f.SponsorsExactly W coins fee := by
  have htake : ∀ k, (f.store.confirmedValues.take k).sum < 2 ^ 64 :=
    fun k => (List.take_sublist k _).sum_le_sum (fun _ _ => Nat.zero_le _) |>.trans_lt hfits
  -- the change has an index that no output of the ledger has
  have hindex : ∀ o ∈ f.store.outputs, o.index ≠ f.keystore.nextIndex := by
    intro o ho heq
    rcases hregular.next o ho with h | h | h
    · exact hgenesis (heq.symm.trans h)
    · exact hfaucet (heq.symm.trans h)
    · rw [heq] at h
      exact UInt32.lt_irrefl _ h
  rw [sponsorsExactly_iff hregular]
  by_cases hcovers : ∃ k, fee.toNat ≤ (f.store.confirmedValues.take k).sum
  · obtain ⟨k, hk⟩ := hcovers
    exact .inr ⟨⟨k, hk, htake k⟩, .inr fun o ho _ => hindex o ho⟩
  · refine .inl fun k => ?_
    rw [Nat.mod_eq_of_lt (htake k)]
    exact Nat.lt_of_not_le fun hk => hcovers ⟨k, hk⟩

end FaucetState

/-! ## The devnet's faucet -/

namespace Devnet

/-- The faucet as it starts. -/
def startedFaucet : FaucetState crypto :=
  ⟨faucet, faucetStore⟩

theorem startedFaucet_regular : startedFaucet.Regular wallet := by
  refine ⟨by decide +kernel, wellFormed_of_opens ?_, by decide +kernel⟩
  decide +kernel

/-- The reserve pays for a registration, and gets it back. -/
theorem startedFaucet_sponsors :
    startedFaucet.SponsorsExactly wallet sponsorCoins nameRegistrationFee :=
  FaucetState.sponsorsExactly_of_fits startedFaucet_regular (by decide +kernel) (by decide) (by decide)
    sponsorCoins nameRegistrationFee

end Devnet

end Haze
