import Haze.Lib.Cover
import Haze.Wallet.Send

/-!
# The planner in exact numbers

`plan_send` and `create_slate` add, sum and subtract `u64` values that come straight from the caller and
the ledger. Neither panics, and an error does no harm. A result is right in exact numbers if the attempt
at which the fee settles has wrapped nothing around: neither the target nor the total of the outputs taken
(`NeverWraps`, a condition on the ledger's values, the amount and the fee alone). Elsewhere a target that
has wrapped around is covered by almost nothing.

An attempt that wraps is never made good by a later one: fees only go up, so the target of a later attempt
wraps too, and so does a total. The condition is therefore about the last attempt only.
-/

namespace Haze

open Cover

variable {P : Crypto} {W : WalletCrypto P}

/-! ## Selection

The loop over the outputs stops as soon as the total reaches the target. Below the limit this is the
shortest prefix of the sorted values that covers it, which the library calls the cover. -/

/-- What can be spent, the largest value first. -/
def WalletStore.spendableValues (store : WalletStore P) : List ℕ :=
  store.spendableIncludingPending.map fun o => o.value.toNat

theorem WalletStore.pairwise_spendableValues (store : WalletStore P) :
    store.spendableValues.Pairwise (· ≥ ·) := by
  have : Std.Total fun a b : OwnedOutput P => b.value ≤ a.value :=
    ⟨fun a b => UInt64.le_total b.value a.value⟩
  have : IsTrans (OwnedOutput P) fun a b => b.value ≤ a.value :=
    ⟨fun a b c hab hbc => UInt64.le_trans hbc hab⟩
  rw [spendableValues, List.pairwise_map]
  exact List.pairwise_insertionSort _ _

theorem WalletStore.spendableValues_perm (store : WalletStore P) :
    store.spendableValues.Perm ((store.outputs.filter fun o =>
      o.status = .confirmed || o.status = .pending).map fun o => o.value.toNat) :=
  (List.perm_insertionSort _ _).map _

section Selection

variable {target : UInt64} {outputs : List (OwnedOutput P)} {k : ℕ}

/-- A cover that stays below the limit is what the loop takes. -/
theorem takeUntil_of_cover (total : UInt64)
    (hcover : cover (outputs.map fun o => o.value.toNat) (target.toNat - total.toNat) = some k)
    (hfits : total.toNat + ((outputs.take k).map fun o => o.value.toNat).sum < 2 ^ 64) :
    (takeUntil target total outputs).1 = (outputs.take k).map OwnedOutput.planned ∧
      (takeUntil target total outputs).2.toNat =
        total.toNat + ((outputs.take k).map fun o => o.value.toNat).sum := by
  induction outputs generalizing total k with
  | nil =>
      have hzero : k = 0 := by simpa using (cover_eq_some_iff.mp hcover).1
      subst hzero
      exact ⟨rfl, rfl⟩
  | cons o outputs ih =>
      rw [takeUntil]
      by_cases hdone : total ≥ target
      · have hle : target.toNat ≤ total.toNat := hdone
        rw [Nat.sub_eq_zero_of_le hle, cover_zero] at hcover
        cases hcover
        rw [if_pos hdone]
        exact ⟨rfl, rfl⟩
      · have hlt : total.toNat < target.toNat := UInt64.not_le.mp hdone
        rw [if_neg hdone]
        rw [List.map_cons, cover_cons _ (Nat.sub_pos_of_lt hlt), Option.map_eq_some_iff] at hcover
        obtain ⟨k, hcover, rfl⟩ := hcover
        rw [List.take_succ_cons, List.map_cons, List.sum_cons] at hfits
        have hadd : (total + o.value).toNat = total.toNat + o.value.toNat := by
          rw [UInt64.toNat_add]
          exact Nat.mod_eq_of_lt (by omega)
        rw [Nat.sub_sub, ← hadd] at hcover
        obtain ⟨htaken, htotal⟩ := ih _ hcover (by omega)
        refine ⟨?_, ?_⟩
        · rw [List.take_succ_cons, List.map_cons, ← htaken]
        · rw [List.take_succ_cons, List.map_cons, List.sum_cons]
          refine htotal.trans ?_
          omega

/-- What the loop takes is a cover, if it stays below the limit. -/
theorem cover_of_takeUntil (total : UInt64)
    (hfits : total.toNat + ((takeUntil target total outputs).1.map fun o => o.value.toNat).sum < 2 ^ 64)
    (hcovered : target ≤ (takeUntil target total outputs).2) :
    cover (outputs.map fun o => o.value.toNat) (target.toNat - total.toNat) =
      some (takeUntil target total outputs).1.length := by
  induction outputs generalizing total with
  | nil =>
      have hle : target.toNat ≤ total.toNat := hcovered
      rw [Nat.sub_eq_zero_of_le hle, cover_zero]
      rfl
  | cons o outputs ih =>
      rw [takeUntil] at hfits hcovered ⊢
      by_cases hdone : total ≥ target
      · have hle : target.toNat ≤ total.toNat := hdone
        rw [if_pos hdone, Nat.sub_eq_zero_of_le hle, cover_zero]
        rfl
      · have hlt : total.toNat < target.toNat := UInt64.not_le.mp hdone
        rw [if_neg hdone] at hfits hcovered ⊢
        simp only [List.map_cons, List.sum_cons] at hfits
        rw [show o.planned.value = o.value from rfl] at hfits
        have hadd : (total + o.value).toNat = total.toNat + o.value.toNat := by
          rw [UInt64.toNat_add]
          exact Nat.mod_eq_of_lt (by omega)
        rw [List.map_cons, cover_cons _ (Nat.sub_pos_of_lt hlt), Nat.sub_sub, ← hadd,
          ih _ (by omega) hcovered]
        rfl

/-- The loop counts as `coverMod` does. -/
theorem coverMod_takeUntil (target total : UInt64) (outputs : List (OwnedOutput P)) :
    coverMod (2 ^ 64) target.toNat total.toNat (outputs.map fun o => o.value.toNat) =
      if (takeUntil target total outputs).2 < target then none
      else some (takeUntil target total outputs).1.length := by
  induction outputs generalizing total with
  | nil =>
      rw [List.map_nil, coverMod, takeUntil]
      by_cases hdone : target ≤ total
      · rw [if_pos (UInt64.le_iff_toNat_le.mp hdone), if_neg (UInt64.not_lt.mpr hdone)]
        rfl
      · rw [if_neg fun hle => hdone (UInt64.le_iff_toNat_le.mpr hle), if_pos (UInt64.not_le.mp hdone)]
  | cons o outputs ih =>
      rw [List.map_cons, coverMod, takeUntil]
      by_cases hdone : target ≤ total
      · rw [if_pos (UInt64.le_iff_toNat_le.mp hdone), if_pos hdone, if_neg (UInt64.not_lt.mpr hdone)]
        rfl
      · rw [if_neg fun hle => hdone (UInt64.le_iff_toNat_le.mpr hle), if_neg hdone, ← UInt64.toNat_add,
          ih]
        dsimp only
        split
        · rfl
        · rfl

end Selection

section Select

variable {store : WalletStore P} {target : UInt64} {selected : List (PlannedOutput P)} {k : ℕ}

section From

variable {outputs : List (OwnedOutput P)}

/-- The values selected are those in front. -/
theorem values_selectFrom (h : selectFrom store outputs target = .ok selected) :
    (selected.map fun o => o.value.toNat) =
      (outputs.map fun o => o.value.toNat).take selected.length := by
  obtain ⟨taken, htaken, rfl, -⟩ := selectFrom_ok h
  rw [← List.map_take, List.length_map, ← List.prefix_iff_eq_take.mp htaken, List.map_map]
  rfl

theorem selectFrom_of_cover (hcover : cover (outputs.map fun o => o.value.toNat) target.toNat = some k)
    (hfits : ((outputs.map fun o => o.value.toNat).take k).sum < 2 ^ 64) :
    selectFrom store outputs target = .ok ((outputs.take k).map OwnedOutput.planned) := by
  rw [← List.map_take] at hfits
  obtain ⟨htaken, htotal⟩ := takeUntil_of_cover 0 hcover (by simpa using hfits)
  have hcovered : ¬ (takeUntil target 0 outputs).2 < target := by
    rw [UInt64.lt_iff_toNat_lt, htotal, List.map_take]
    have := (cover_eq_some_iff.mp hcover).2.1
    simp only [UInt64.toNat_zero]
    omega
  rw [selectFrom]
  dsimp only
  rw [if_neg hcovered, htaken]

theorem cover_of_selectFrom (h : selectFrom store outputs target = .ok selected)
    (hfits : (selected.map fun o => o.value.toNat).sum < 2 ^ 64) :
    cover (outputs.map fun o => o.value.toNat) target.toNat = some selected.length := by
  unfold selectFrom at h
  dsimp only at h
  split at h
  · cases h
  next hcovered =>
    obtain rfl := Except.ok.inj h
    have hcover := cover_of_takeUntil 0 (by simpa using hfits) (UInt64.not_lt.mp hcovered)
    simpa using hcover

theorem coverMod_selectFrom (store : WalletStore P) (outputs : List (OwnedOutput P)) (target : UInt64) :
    coverMod (2 ^ 64) target.toNat 0 (outputs.map fun o => o.value.toNat) =
      match selectFrom store outputs target with
      | .ok selected => some selected.length
      | .error _ => none := by
  rw [← UInt64.toNat_zero, coverMod_takeUntil, selectFrom]
  dsimp only
  split
  · rfl
  · rfl

end From

theorem values_selected (h : selectSpendable store target = .ok selected) :
    (selected.map fun o => o.value.toNat) = store.spendableValues.take selected.length :=
  values_selectFrom h

theorem selectSpendable_of_cover (hcover : cover store.spendableValues target.toNat = some k)
    (hfits : (store.spendableValues.take k).sum < 2 ^ 64) :
    selectSpendable store target =
      .ok ((store.spendableIncludingPending.take k).map OwnedOutput.planned) :=
  selectFrom_of_cover hcover hfits

theorem cover_of_selectSpendable (h : selectSpendable store target = .ok selected)
    (hfits : (selected.map fun o => o.value.toNat).sum < 2 ^ 64) :
    cover store.spendableValues target.toNat = some selected.length :=
  cover_of_selectFrom h hfits

end Select

/-! ## Prices

The fee that a payment requires depends on its size, and the size on two things only: how many inputs there
are and whether there is change. So the price of an attempt can be read off the values in the ledger, with
no key and no random choice. -/

/-- The size of a payment: one output to the receiver, one more if there is change, one kernel. The sample
stands for all outputs, which have one size. -/
def planSize (W : WalletCrypto P) (sample : OutputCoins W) (inputs : ℕ) (change : Bool) : ℕ :=
  let output := (makeOutput W sample zeroHash 0 0 0).serializedSize W
  (8 + 40 * inputs) + (8 + if change then output + output else output) + (8 + 120)

/-- The fee that the size requires. -/
def planPrice (W : WalletCrypto P) (sample : OutputCoins W) (inputs : ℕ) (change : Bool) : ℕ :=
  (max (divCeil (feePerKb * UInt64.ofNat (planSize W sample inputs change)) 1000) minFee).toNat

theorem requiredFee_eq_planPrice {tx : Transaction P} (sample : OutputCoins W) (change : Bool)
    (houtputs : (tx.outputs.map (Output.serializedSize W)).sum =
      let output := (makeOutput W sample zeroHash 0 0 0).serializedSize W
      if change then output + output else output)
    (hkernels : tx.kernels.length = 1) :
    (requiredFee (Transaction.serializedSize W) tx).toNat =
      planPrice W sample tx.inputs.length change := by
  rw [requiredFee, Transaction.serializedSize, planPrice, planSize, houtputs, hkernels]
  rfl

/-- A fee, reached by raising, is in range: the target and the total of what covers it are `u64`. -/
structure InRange (store : WalletStore P) (amount : UInt64) (fee : ℕ) : Prop where
  target : amount.toNat + fee < 2 ^ 64
  total : ∃ k, cover store.spendableValues (amount.toNat + fee) = some k ∧
    (store.spendableValues.take k).sum < 2 ^ 64

/-- **No attempt that settles wraps.** Take the planner's course in machine numbers, the outputs from the
largest on: if its fee settles within the attempts, then the amount and that fee, and the total of the
outputs taken for it, are below the limit. -/
def NeverWraps (W : WalletCrypto P) (sample : OutputCoins W) (store : WalletStore P)
    (amount fee : UInt64) : Prop :=
  match settleMod (2 ^ 64) (planPrice W sample) store.spendableValues amount.toNat maxFeeFitAttempts
      fee.toNat with
  | none => True
  | some (f, k) => amount.toNat + f < 2 ^ 64 ∧ (store.spendableValues.take k).sum < 2 ^ 64

instance (sample : OutputCoins W) (store : WalletStore P) (amount fee : UInt64) :
    Decidable (NeverWraps W sample store amount fee) := by
  unfold NeverWraps
  split <;> infer_instance

section Attempt

variable {store : WalletStore P} {amount : UInt64} {f : ℕ}

/-- What there is to change in exact numbers, decided by the machine. -/
theorem change_pos_iff {fee : UInt64} {selected : List (PlannedOutput P)}
    (htarget : amount.toNat + fee.toNat < 2 ^ 64)
    (hfits : (selected.map fun o => o.value.toNat).sum < 2 ^ 64)
    (h : selectSpendable store (amount + fee) = .ok selected) :
    (0 < totalValue selected - (amount + fee)) ↔
      amount.toNat + fee.toNat < (store.spendableValues.take selected.length).sum := by
  have hbalance := selected_balances ⟨htarget, fun s hs => by
    cases h.symm.trans hs
    exact hfits⟩ h
  rw [UInt64.lt_iff_toNat_lt, UInt64.toNat_zero, ← values_selected h]
  omega

theorem toNat_target {fee : UInt64} (h : amount.toNat + fee.toNat < 2 ^ 64) :
    (amount + fee).toNat = amount.toNat + fee.toNat := by
  rw [UInt64.toNat_add, Nat.mod_eq_of_lt h]

/-- Below a fee in range the machine selects as the exact plan does. -/
theorem InRange.select (h : InRange store amount f) {fee : UInt64} (hle : fee.toNat ≤ f) :
    ∃ selected, selectSpendable store (amount + fee) = .ok selected ∧
      (selected.map fun o => o.value.toNat).sum < 2 ^ 64 ∧
      cover store.spendableValues (amount.toNat + fee.toNat) = some selected.length := by
  obtain ⟨htarget, k, hcover, hfits⟩ := h
  have htarget' : amount.toNat + fee.toNat < 2 ^ 64 := by omega
  have hcovered : amount.toNat + fee.toNat ≤ (store.spendableValues.take k).sum :=
    (Nat.add_le_add_left hle _).trans (cover_eq_some_iff.mp hcover).2.1
  obtain ⟨j, hj, hcover'⟩ := exists_cover hcovered
  have hfits' : (store.spendableValues.take j).sum < 2 ^ 64 := (sum_take_mono hj).trans_lt hfits
  have hselected := selectSpendable_of_cover (toNat_target htarget' ▸ hcover') hfits'
  have hsum : (((store.spendableIncludingPending.take j).map OwnedOutput.planned).map
      fun o => o.value.toNat).sum < 2 ^ 64 := by
    rw [List.map_map]
    rw [WalletStore.spendableValues, ← List.map_take] at hfits'
    exact hfits'
  refine ⟨_, hselected, hsum, ?_⟩
  rw [← toNat_target htarget']
  exact cover_of_selectSpendable hselected hsum

/-- And so the price is the same. -/
theorem InRange.attempt (h : InRange store amount f) (sample : OutputCoins W) {fee : UInt64}
    (hle : fee.toNat ≤ f) :
    ∃ selected, selectSpendable store (amount + fee) = .ok selected ∧
      required (planPrice W sample) store.spendableValues (amount.toNat + fee.toNat) =
        some (planPrice W sample selected.length (0 < totalValue selected - (amount + fee))) := by
  obtain ⟨selected, hselected, hfits, hcover⟩ := h.select hle
  have hchange := change_pos_iff (by have := h.target; omega) hfits hselected
  refine ⟨selected, hselected, ?_⟩
  rw [required, hcover, Option.map_some, decide_eq_decide.mpr hchange]

end Attempt

/-! ## The loop

Both planners are the same loop around another builder. What the loop needs of a builder is in `Attempts`,
and all that follows from it is said once, for a result of any kind. -/

section Loop

variable {α : Type}
  {build : ℕ → Keystore → UInt64 → Option (Except PlanError (α × Transaction P) × Keystore)}
  {store : WalletStore P} {amount : UInt64} {sample : OutputCoins W}
  {made : α → List (PlannedOutput P) → UInt64 → Prop} {n : ℕ} {fee : UInt64}

/-- What an attempt comes to: it fails as the selection does, and else what is made of the selection
requires the fee of its size. -/
structure Attempts (W : WalletCrypto P) (sample : OutputCoins W) (store : WalletStore P)
    (amount : UInt64)
    (build : ℕ → Keystore → UInt64 → Option (Except PlanError (α × Transaction P) × Keystore))
    (made : α → List (PlannedOutput P) → UInt64 → Prop) : Prop where
  error : ∀ attempt keystore fee e, selectSpendable store (amount + fee) = .error e →
    build attempt keystore fee = some (.error e, keystore)
  ok : ∀ attempt keystore fee selected, selectSpendable store (amount + fee) = .ok selected →
    ∃ built tx keystore', build attempt keystore fee = some (.ok (built, tx), keystore') ∧
      (requiredFee (Transaction.serializedSize W) tx).toNat =
        planPrice W sample selected.length (0 < totalValue selected - (amount + fee)) ∧
      made built selected fee

/-- An attempt takes as many outputs as the machine counts, and asks for the price of so many. -/
theorem settleMod_succ (price : ℕ → Bool → ℕ) (store : WalletStore P) (amount fee : UInt64) (n : ℕ) :
    settleMod (2 ^ 64) price store.spendableValues amount.toNat (n + 1) fee.toNat =
      match selectSpendable store (amount + fee) with
      | .error _ => none
      | .ok selected =>
          let p := price selected.length (0 < totalValue selected - (amount + fee))
          if p ≤ fee.toNat then some (fee.toNat, selected.length)
          else settleMod (2 ^ 64) price store.spendableValues amount.toNat n p := by
  have hcover : coverMod (2 ^ 64) ((amount.toNat + fee.toNat) % 2 ^ 64) 0 store.spendableValues =
      match selectSpendable store (amount + fee) with
      | .ok selected => some selected.length
      | .error _ => none := by
    rw [← UInt64.toNat_add]
    exact coverMod_selectFrom store _ _
  rw [settleMod, hcover]
  cases hselect : selectSpendable store (amount + fee) with
  | error e => rfl
  | ok selected =>
      -- what is left over, in machine numbers
      have hchange : (amount.toNat + fee.toNat) % 2 ^ 64 <
          (store.spendableValues.take selected.length).sum % 2 ^ 64 ↔
          0 < totalValue selected - (amount + fee) := by
        obtain ⟨-, -, -, hcovered⟩ := selectFrom_ok hselect
        have hsub := UInt64.toNat_sub_of_le _ _ hcovered
        have htotal : (totalValue selected).toNat =
            (store.spendableValues.take selected.length).sum % 2 ^ 64 := by
          rw [totalValue, toNat_sum, ← values_selected hselect, List.map_map]
          rfl
        rw [← htotal, ← UInt64.toNat_add, UInt64.lt_iff_toNat_lt, hsub, UInt64.toNat_zero]
        omega
      dsimp only
      rw [decide_eq_decide.mpr hchange]

/-- The loop does not panic. A result is one of the attempts, the one at which the fee settles; and there is
an error where the fee does not settle. -/
theorem Attempts.result (h : Attempts W sample store amount build made)
    (giveUp : UInt64 → PlanError) (n : ℕ) (keystore : Keystore) (fee : UInt64) :
    ∃ r keystore', fitFee W build giveUp n keystore fee = some (r, keystore') ∧
      (∀ e, r = .error e → settleMod (2 ^ 64) (planPrice W sample) store.spendableValues amount.toNat n
        fee.toNat = none) ∧
      ∀ built, r = .ok built → ∃ selected f, fee ≤ f ∧ made built selected f ∧
        selectSpendable store (amount + f) = .ok selected ∧
        planPrice W sample selected.length (0 < totalValue selected - (amount + f)) ≤ f.toNat ∧
        settleMod (2 ^ 64) (planPrice W sample) store.spendableValues amount.toNat n fee.toNat =
          some (f.toNat, selected.length) := by
  induction n generalizing keystore fee with
  | zero => exact ⟨_, _, rfl, fun _ _ => rfl, fun _ hok => by cases hok⟩
  | succ n ih =>
      rw [settleMod_succ]
      cases hselect : selectSpendable store (amount + fee) with
      | error e =>
          refine ⟨.error e, keystore, ?_, fun _ _ => rfl, fun _ hok => by cases hok⟩
          rw [fitFee, h.error n keystore fee e hselect]
      | ok selected =>
          obtain ⟨built, tx, keystore₁, hbuild, hprice, hmade⟩ := h.ok n keystore fee selected hselect
          dsimp only
          rw [fitFee, hbuild, ← hprice]
          dsimp only
          by_cases henough : fee ≥ requiredFee (Transaction.serializedSize W) tx
          · rw [if_pos (show (requiredFee (Transaction.serializedSize W) tx).toNat ≤ fee.toNat from henough)]
            refine ⟨.ok built, keystore₁, by rw [if_pos henough], fun _ herror => (by cases herror), ?_⟩
            rintro _ ⟨⟩
            exact ⟨selected, fee, UInt64.le_refl _, hmade, hselect, hprice ▸ henough, rfl⟩
          · rw [if_neg henough,
              if_neg (show ¬ (requiredFee (Transaction.serializedSize W) tx).toNat ≤ fee.toNat from henough)]
            obtain ⟨r, keystore', hrun, herror, hr⟩ :=
              ih keystore₁ (requiredFee (Transaction.serializedSize W) tx)
            refine ⟨r, keystore', hrun, herror, ?_⟩
            intro built' hok
            obtain ⟨selected', f, hf, hrest⟩ := hr built' hok
            exact ⟨selected', f, UInt64.le_trans (UInt64.le_of_lt (UInt64.not_le.mp henough)) hf, hrest⟩

end Loop

/-! ## Plans and slates

The two builders make attempts in this sense. A plan pays the amount to an output of its own and a slate
leaves that to the receiver, but a slate is priced with a place for the receiver's output, so the sizes
agree. -/

/-- The secret of the faucet's reserve is set if the ledger holds the reserve: `FaucetState::new` adds it
only then. -/
def HoldsSecret (W : WalletCrypto P) (store : WalletStore P) : Prop :=
  ∀ o ∈ store.outputs, o.index = faucetIndex → W.treasuryBlinding.isSome

section Built

variable {store : WalletStore P}

theorem inputBlindings_of_holdsSecret (hsecret : HoldsSecret W store) (keystore : Keystore)
    {target : UInt64} {selected : List (PlannedOutput P)}
    (h : selectSpendable store target = .ok selected) :
    ∃ blindings, inputBlindings W keystore selected = some blindings := by
  obtain ⟨taken, htaken, rfl⟩ := selectSpendable_mem h
  apply inputBlindings_of_forall
  intro o ho
  obtain ⟨owned, howned, rfl⟩ := List.mem_map.mp ho
  show ∃ r, blindingFor W keystore owned.index = some r
  unfold blindingFor
  split
  · exact ⟨_, rfl⟩
  · split
    next hfaucet => exact Option.isSome_iff_exists.mp (hsecret owned (htaken owned howned).1 hfaucet)
    · exact ⟨_, rfl⟩

/-- There is a change output where something is left over. -/
theorem sizes_makeChange (sample coins : OutputCoins W) (keystore : Keystore) (value : UInt64) :
    ((makeChange W coins keystore value).1.map ChangeInfo.output).toList.map (Output.serializedSize W) =
      if 0 < value then [(makeOutput W sample zeroHash 0 0 0).serializedSize W] else [] := by
  unfold makeChange
  by_cases hvalue : value > 0
  · rw [if_pos hvalue, if_pos hvalue]
    simp only [Option.map_some, Option.toList_some, List.map_cons, List.map_nil]
    rw [serializedSize_makeOutput]
  · rw [if_neg hvalue, if_neg hvalue]
    rfl

theorem isSome_makeChange (coins : OutputCoins W) (keystore : Keystore) (value : UInt64) :
    (makeChange W coins keystore value).1.isSome ↔ 0 < value := by
  unfold makeChange
  split
  next hvalue => simp [hvalue]
  next hvalue => simpa using hvalue

theorem attempts_planSend (sample : OutputCoins W) (amount : UInt64) (hsecret : HoldsSecret W store)
    (coins : ℕ → SendCoins W) :
    Attempts W sample store amount
      (fun attempt keystore fee =>
        (buildSendTransaction W (coins attempt) keystore store amount fee).map fun built =>
          (built.1.map fun plan => (plan, plan.transaction), built.2))
      (fun plan selected fee => plan.spentCommitments = selected.map PlannedOutput.commitment ∧
        txFee plan.transaction = fee ∧
        (plan.change.map PlannedOutput.value).getD 0 = totalValue selected - (amount + fee) ∧
        (plan.change.isSome ↔ 0 < totalValue selected - (amount + fee))) where
  error := by
    intro attempt keystore fee e h
    rw [buildSendTransaction, h]
    rfl
  ok := by
    intro attempt keystore fee selected h
    obtain ⟨blindings, hblindings⟩ := inputBlindings_of_holdsSecret hsecret keystore h
    obtain ⟨plan, keystore', hplan⟩ : ∃ plan keystore',
        buildSendTransaction W (coins attempt) keystore store amount fee =
          some (.ok plan, keystore') := by
      unfold buildSendTransaction
      dsimp only
      rw [h]
      dsimp only
      rw [hblindings]
      exact ⟨_, _, rfl⟩
    obtain ⟨selected', blindings', made, h', -, hmade, -, htx, -, hchange, hspent⟩ :=
      buildSendTransaction_ok hplan
    obtain rfl := Except.ok.inj (h.symm.trans h')
    refine ⟨plan, plan.transaction, keystore', by rw [hplan]; rfl, ?_, hspent, ?_, ?_, ?_⟩
    · rw [requiredFee_eq_planPrice sample (0 < totalValue selected - (amount + fee))]
      · rw [htx]
        simp [plannedInputs]
      · rw [htx, List.map_cons, hmade, sizes_makeChange sample,
          serializedSize_makeOutput _ sample _ zeroHash _ 0 _ 0 _ 0]
        by_cases hvalue : 0 < totalValue selected - (amount + fee)
        · simp [hvalue]
        · simp [hvalue]
      · rw [htx]
        rfl
    · rw [htx]
      simp [txFee]
    · rw [hchange, hmade, Option.map_map]
      exact value_makeChange _ _ _
    · rw [hchange, hmade, Option.isSome_map]
      exact isSome_makeChange _ _ _

/-- What a slate is made of, by the outputs selected. -/
theorem buildSlate_selected (sample : OutputCoins W) {coins : SlateCoins W}
    {keystore keystore' : Keystore} {amount fee : UInt64} {slate : Slate P} {pending : PendingSlate P}
    {probe : Transaction P} {selected : List (PlannedOutput P)}
    (hselect : selectSpendable store (amount + fee) = .ok selected)
    (h : buildSlate W coins keystore store amount fee =
      some (.ok ((slate, pending), probe), keystore')) :
    (requiredFee (Transaction.serializedSize W) probe).toNat =
      planPrice W sample selected.length (0 < totalValue selected - (amount + fee)) ∧
    slate.amount = amount ∧ slate.fee = fee ∧ pending.fee = fee ∧
    pending.spentCommitments = selected.map PlannedOutput.commitment ∧
    (pending.change.map ChangeInfo.value).getD 0 = totalValue selected - (amount + fee) ∧
    (pending.change.isSome ↔ 0 < totalValue selected - (amount + fee)) := by
  obtain ⟨selected', blindings, made, hselect', -, hmade, rfl, rfl, rfl⟩ := buildSlate_ok h
  obtain rfl := Except.ok.inj (hselect.symm.trans hselect')
  refine ⟨?_, rfl, rfl, rfl, rfl, ?_, ?_⟩
  · rw [requiredFee_eq_planPrice sample (0 < totalValue selected - (amount + fee))]
    · simp [plannedInputs]
    · have hsize := serializedSize_placeholderOutput coins.placeholder sample (made.2.2.noteKey W)
        zeroHash 0 amount 0 0
      rw [List.map_append, List.map_cons, List.map_nil, hsize, hmade, sizes_makeChange sample]
      by_cases hvalue : 0 < totalValue selected - (amount + fee)
      · simp [hvalue]
      · simp [hvalue]
    · rfl
  · rw [hmade]
    exact value_makeChange _ _ _
  · rw [hmade]
    exact isSome_makeChange _ _ _

theorem attempts_createSlate (sample : OutputCoins W) (amount : UInt64)
    (hsecret : HoldsSecret W store) (coins : ℕ → SlateCoins W) :
    Attempts W sample store amount
      (fun attempt keystore fee => buildSlate W (coins attempt) keystore store amount fee)
      (fun built selected fee =>
        built.2.spentCommitments = selected.map PlannedOutput.commitment ∧ built.1.fee = fee ∧
        (built.2.change.map ChangeInfo.value).getD 0 = totalValue selected - (amount + fee)) where
  error := by
    intro attempt keystore fee e h
    rw [buildSlate, h]
  ok := by
    intro attempt keystore fee selected h
    obtain ⟨blindings, hblindings⟩ := inputBlindings_of_holdsSecret hsecret keystore h
    obtain ⟨slate, pending, probe, keystore', hslate⟩ : ∃ slate pending probe keystore',
        buildSlate W (coins attempt) keystore store amount fee =
          some (.ok ((slate, pending), probe), keystore') := by
      unfold buildSlate
      dsimp only
      rw [h]
      dsimp only
      rw [hblindings]
      exact ⟨_, _, _, _, rfl⟩
    obtain ⟨hprice, -, hfee, -, hspent, hvalue, -⟩ := buildSlate_selected sample h hslate
    exact ⟨(slate, pending), probe, keystore', hslate, hprice, hspent, hfee, hvalue⟩

end Built

/-! ## Results that have not wrapped

What the caller hopes for is `Unwrapped`: inputs that are worth exactly the amount, the fee and the change.
It is compared with `NeverWraps`, which looks at the ledger, the amount and the fee and at nothing that was
built. -/

/-- A result in exact numbers: what was taken is worth the amount, the fee and the change, and neither the
target nor the total went over the limit. -/
structure Unwrapped (store : WalletStore P) (amount offered : UInt64) (spent : List (Commitment P))
    (fee change : UInt64) : Prop where
  taken : ∃ taken, taken <+: store.spendableIncludingPending ∧
    spent = taken.map OwnedOutput.commitment ∧
    (taken.map fun o => o.value.toNat).sum < 2 ^ 64 ∧
    (taken.map fun o => o.value.toNat).sum = amount.toNat + fee.toNat + change.toNat
  target : amount.toNat + fee.toNat < 2 ^ 64
  /-- The wallet holds the amount and the fee that was offered. -/
  held : amount.toNat + offered.toNat ≤ store.spendableValues.sum

section Exact

variable {store : WalletStore P} {amount fee : UInt64} {sample : OutputCoins W}

/-- What is selected for a fee is in range exactly if nothing has wrapped around. -/
theorem inRange_iff {selected : List (PlannedOutput P)}
    (hselect : selectSpendable store (amount + fee) = .ok selected) :
    InRange store amount fee.toNat ↔
      amount.toNat + fee.toNat < 2 ^ 64 ∧ (store.spendableValues.take selected.length).sum < 2 ^ 64 := by
  constructor
  · intro hrange
    obtain ⟨selected', hselect', hfits, -⟩ := hrange.select (Nat.le_refl _)
    obtain rfl := Except.ok.inj (hselect.symm.trans hselect')
    exact ⟨hrange.target, values_selected hselect ▸ hfits⟩
  · rintro ⟨htarget, hfits⟩
    have hcover := cover_of_selectSpendable hselect (values_selected hselect ▸ hfits)
    rw [toNat_target htarget] at hcover
    exact ⟨htarget, selected.length, hcover, hfits⟩

theorem unwrapped_iff_inRange {offered : UInt64} {selected : List (PlannedOutput P)}
    {spent : List (Commitment P)} {change : UInt64} (hoffered : offered ≤ fee)
    (hselect : selectSpendable store (amount + fee) = .ok selected)
    (hspent : spent = selected.map PlannedOutput.commitment)
    (hchange : change = totalValue selected - (amount + fee)) :
    Unwrapped store amount offered spent fee change ↔ InRange store amount fee.toNat := by
  constructor
  · rintro ⟨⟨taken, htaken, hspent', hfits, -⟩, htarget, -⟩
    -- the outputs taken are those selected: there are as many of them
    have hlength : selected.length = taken.length := by
      simpa using congrArg List.length (hspent.symm.trans hspent')
    have hvalues := values_selected hselect
    rw [hlength, WalletStore.spendableValues, ← List.map_take, ← List.prefix_iff_eq_take.mp htaken]
      at hvalues
    have hcover := cover_of_selectSpendable hselect (hvalues ▸ hfits)
    rw [toNat_target htarget] at hcover
    refine ⟨htarget, selected.length, hcover, ?_⟩
    rw [← values_selected hselect, hvalues]
    exact hfits
  · intro hrange
    obtain ⟨selected', hselect', hfits, -⟩ := hrange.select (Nat.le_refl _)
    obtain rfl := Except.ok.inj (hselect.symm.trans hselect')
    obtain ⟨taken, htaken, hselected, -⟩ := selectFrom_ok hselect
    have hbalance := selected_balances ⟨hrange.target, fun s hs => by
      obtain rfl := Except.ok.inj (hselect.symm.trans hs)
      exact hfits⟩ hselect
    have hvalues : (selected.map fun o => o.value.toNat) = taken.map fun o => o.value.toNat := by
      rw [hselected, List.map_map]
      rfl
    have hsum : (taken.map fun o => o.value.toNat).sum ≤ store.spendableValues.sum :=
      ((htaken.sublist.map _).sum_le_sum fun _ _ => Nat.zero_le _)
    refine ⟨⟨taken, htaken, ?_, hvalues ▸ hfits, ?_⟩, hrange.target, ?_⟩
    · rw [hspent, hselected, List.map_map]
      rfl
    · rw [← hvalues, hbalance, hchange]
    · have hle : offered.toNat ≤ fee.toNat := hoffered
      rw [← hvalues] at hsum
      omega

/-- A loop whose results say what they were made of comes to an error or to an exact result exactly if no
attempt that settles wraps. -/
theorem Attempts.unwrapped_iff {α : Type}
    {build : ℕ → Keystore → UInt64 → Option (Except PlanError (α × Transaction P) × Keystore)}
    (giveUp : UInt64 → PlanError) (keystore : Keystore) (spent : α → List (Commitment P))
    (paid change : α → UInt64) {made : α → List (PlannedOutput P) → UInt64 → Prop}
    (h : Attempts W sample store amount build made)
    (hmade : ∀ built selected f, made built selected f →
      spent built = selected.map PlannedOutput.commitment ∧ paid built = f ∧
        change built = totalValue selected - (amount + f)) :
    (∃ r keystore', fitFee W build giveUp maxFeeFitAttempts keystore fee = some (r, keystore') ∧
      ∀ built, r = .ok built →
        Unwrapped store amount fee (spent built) (paid built) (change built)) ↔
      NeverWraps W sample store amount fee := by
  obtain ⟨r, keystore', hrun, herror, hr⟩ := h.result giveUp maxFeeFitAttempts keystore fee
  have hresult : (∃ r keystore', fitFee W build giveUp maxFeeFitAttempts keystore fee =
        some (r, keystore') ∧ ∀ built, r = .ok built →
          Unwrapped store amount fee (spent built) (paid built) (change built)) ↔
      ∀ built, r = .ok built → Unwrapped store amount fee (spent built) (paid built) (change built) := by
    constructor
    · rintro ⟨r', keystore'', hrun', hunwrapped⟩
      cases hrun.symm.trans hrun'
      exact hunwrapped
    · exact fun hunwrapped => ⟨r, keystore', hrun, hunwrapped⟩
  rw [hresult]
  cases r with
  | error e =>
      refine iff_of_true (fun _ hok => nomatch hok) ?_
      rw [NeverWraps, herror e rfl]
      trivial
  | ok built =>
      obtain ⟨selected, f, hf, hmade₁, hselect, -, hsettle⟩ := hr built rfl
      obtain ⟨hspent, hpaid, hchange⟩ := hmade _ _ _ hmade₁
      rw [NeverWraps, hsettle]
      dsimp only
      rw [← inRange_iff hselect, ← unwrapped_iff_inRange hf hselect hspent hchange, ← hpaid]
      constructor
      · exact fun hunwrapped => hunwrapped built rfl
      · rintro hunwrapped _ ⟨⟩
        exact hunwrapped

/-- **Plans and slates in exact numbers.** Either function makes an error or a result that has not wrapped,
and does not panic, if and only if no attempt at which the fee settles wraps. -/
theorem planSend_createSlate_unwrapped_iff (sample : OutputCoins W) (keystore : Keystore)
    (store : WalletStore P) (amount fee : UInt64) (hsecret : HoldsSecret W store)
    (sendCoins : ℕ → SendCoins W) (slateCoins : ℕ → SlateCoins W) :
    ((∃ r keystore', planSend W sendCoins keystore store amount fee = some (r, keystore') ∧
      ∀ plan, r = .ok plan →
        Unwrapped store amount fee plan.spentCommitments (txFee plan.transaction)
          ((plan.change.map PlannedOutput.value).getD 0)) ↔
      NeverWraps W sample store amount fee) ∧
    ((∃ r keystore', createSlate W slateCoins keystore store amount fee = some (r, keystore') ∧
      ∀ slate pending, r = .ok (slate, pending) →
        Unwrapped store amount fee pending.spentCommitments slate.fee
          ((pending.change.map ChangeInfo.value).getD 0)) ↔
      NeverWraps W sample store amount fee) := by
  constructor
  · exact Attempts.unwrapped_iff _ keystore _ _ _ (attempts_planSend sample amount hsecret sendCoins)
      fun _ _ _ hmade => ⟨hmade.1, hmade.2.1, hmade.2.2.1⟩
  · rw [← Attempts.unwrapped_iff (fun fee => .insufficientBalance (store.balance + store.pendingBalance)
          (amount + fee)) keystore
        (fun built : Slate P × PendingSlate P => built.2.spentCommitments) (fun built => built.1.fee)
        (fun built => (built.2.change.map ChangeInfo.value).getD 0)
        (attempts_createSlate sample amount hsecret slateCoins) (fun _ _ _ hmade => hmade)]
    simp only [Prod.forall]
    rfl

end Exact

namespace Devnet

def sendCoins (_ : ℕ) : SendCoins wallet := ⟨coins, coins, (5 : BitVec 256)⟩

/-- A payment of 100 from two outputs of sixty, at a fee of nine. -/
theorem payer_unwrapped :
    ∃ plan keystore', planSend wallet sendCoins payer payerStore 100 5 = some (.ok plan, keystore') ∧
      Unwrapped payerStore 100 5 plan.spentCommitments (txFee plan.transaction)
        ((plan.change.map PlannedOutput.value).getD 0) := by
  have hsecret : HoldsSecret wallet payerStore := fun _ _ _ => rfl
  obtain ⟨hiff, -⟩ := planSend_createSlate_unwrapped_iff coins payer payerStore 100 5 hsecret sendCoins
    (fun _ => slateCoins 5)
  obtain ⟨r, keystore', hrun, hunwrapped⟩ := hiff.mpr (by decide +kernel)
  have hok : (planSend wallet sendCoins payer payerStore 100 5).map (fun made => made.1.isOk) =
      some true := by
    decide +kernel
  rw [hrun] at hok
  cases r with
  | error e => cases hok
  | ok plan => exact ⟨plan, keystore', hrun, hunwrapped plan rfl⟩

/-- From an empty wallet: the amount and the fee add up to zero, and nothing is needed for that. -/
theorem planSend_wraps :
    ∃ plan keystore', planSend wallet sendCoins payer WalletStore.new 1000 18446744073709550616 =
        some (.ok plan, keystore') ∧
      plan.spentCommitments = [] ∧
      ¬ Unwrapped WalletStore.new 1000 18446744073709550616 plan.spentCommitments
        (txFee plan.transaction) ((plan.change.map PlannedOutput.value).getD 0) := by
  have hrun : (planSend wallet sendCoins payer WalletStore.new 1000 18446744073709550616).map
      (fun made =>
        match made.1 with
        | .ok plan => decide (plan.spentCommitments = [])
        | .error _ => false) = some true := by
    decide +kernel
  obtain ⟨⟨made, keystore'⟩, hmade, hplan⟩ := Option.map_eq_some_iff.mp hrun
  cases made with
  | error e => cases hplan
  | ok plan =>
      refine ⟨plan, keystore', hmade, of_decide_eq_true hplan, ?_⟩
      intro hunwrapped
      exact absurd hunwrapped.held (by decide +kernel)

end Devnet

end Haze
