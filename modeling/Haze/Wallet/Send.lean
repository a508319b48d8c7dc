import Haze.Wallet.Slate

/-!
# A plan to send (`plan_send`)

`plan_send` builds a transaction for the fee it was given, and again for the fee that the size of the
last attempt requires, until the fee covers the size. Each attempt selects anew and allocates new
indices. What a wallet gets in the end is one of the attempts; `planSend_correct` says what holds of
it, whichever it is.
-/

namespace Haze

variable {P : Crypto} {W : WalletCrypto P}

section Indices

variable {coins : OutputCoins W} {keystore : Keystore} {value : UInt64}

/-- A change output takes the next index, and none is taken without one. -/
theorem index_makeChange :
    ((makeChange W coins keystore value).1 = none ∧
      (makeChange W coins keystore value).2.2 = keystore) ∨
    ∃ change, (makeChange W coins keystore value).1 = some change ∧
      change.index = keystore.nextIndex ∧
      (makeChange W coins keystore value).2.2.nextIndex = keystore.nextIndex + 1 := by
  unfold makeChange
  split
  · exact .inr ⟨_, rfl, rfl, rfl⟩
  · exact .inl ⟨rfl, rfl⟩

end Indices

section Plan

variable {coins : SendCoins W} {keystore keystore' : Keystore} {store : WalletStore P}
  {amount fee : UInt64} {plan : SendPlan P}

/-- The indices that an attempt allocates are the next ones. -/
theorem indices_buildSendTransaction
    (h : buildSendTransaction W coins keystore store amount fee = some (.ok plan, keystore')) :
    keystore'.seed = keystore.seed ∧ plan.dest.index = keystore.nextIndex ∧
      ((plan.change = none ∧ keystore'.nextIndex = keystore.nextIndex + 1) ∨
        ∃ change, plan.change = some change ∧ change.index = keystore.nextIndex + 1 ∧
          keystore'.nextIndex = keystore.nextIndex + 1 + 1) := by
  obtain ⟨selected, blindings, made, -, -, hmade, rfl, -, hdest, hchange, -⟩ :=
    buildSendTransaction_ok h
  have hindex := @index_makeChange P W coins.change keystore.allocateIndex.2
    (totalValue selected - (amount + fee))
  rw [← hmade] at hindex
  refine ⟨?_, by rw [hdest], ?_⟩
  · rw [hmade]
    exact seed_makeChange _ _ _
  · rcases hindex with ⟨hnone, hkeystore⟩ | ⟨change, hsome, hchangeIndex, hkeystore⟩
    · refine .inl ⟨by rw [hchange, hnone]; rfl, ?_⟩
      rw [hkeystore]
      rfl
    · refine .inr ⟨change.planned, by rw [hchange, hsome]; rfl, hchangeIndex, ?_⟩
      rw [hkeystore]
      rfl

/-- The kernel is signed and the commitments balance. -/
theorem validate_buildSendTransaction (hstore : WellFormed W keystore store)
    (hfits : FitsU64 store amount fee)
    (h : buildSendTransaction W coins keystore store amount fee = some (.ok plan, keystore')) :
    plan.transaction.validate = true := by
  obtain ⟨selected, blindings, made, hselected, hblindings, hmade, -, htx, -, -, -⟩ :=
    buildSendTransaction_ok h
  have hsum := selected_balances hfits hselected
  have hopen : ∀ o ∈ selected, ∃ r, blindingFor W keystore o.index = some r ∧
      o.commitment = Commitment.new o.value r := by
    obtain ⟨taken, htaken, rfl⟩ := selectSpendable_mem hselected
    intro o ho
    obtain ⟨owned, howned, rfl⟩ := List.mem_map.mp ho
    exact hstore owned (htaken owned howned).1
  have hchange := sumPoints_makeChange (W := W) coins.change keystore.allocateIndex.2
    (totalValue selected - (amount + fee))
  rw [← hmade] at hchange
  rw [htx]
  apply validate_selected hblindings hopen
  · intro o ho
    rcases List.mem_cons.mp ho with rfl | ho
    · exact verify_makeOutput _ _ _ _ _
    · obtain ⟨change, hmem, rfl⟩ := Option.map_eq_some_iff.mp (Option.mem_toList.mp ho)
      rw [hmade] at hmem
      exact verify_makeChange _ _ _ change hmem
  · show Transaction.sumPoints (_ :: _) =
      ((amount.toNat + (totalValue selected - (amount + fee)).toNat : ℕ) : P.Scalar) • P.B + _
    rw [← List.singleton_append, Transaction.sumPoints_append, hchange]
    simp only [Transaction.sumPoints, makeOutput, Commitment.new, List.map_cons, List.map_nil,
      List.sum_cons, List.sum_nil, Nat.cast_add, add_smul, add_zero]
    abel
  · rw [hsum]
    omega

/-- The loop of `plan_send`, while no index has wrapped: the seed stays, the fee only goes up, and two
indices at most are taken in an attempt. -/
def PlanLoop (keystore : Keystore) (fee : UInt64) (left : ℕ) (k : Keystore) (f : UInt64) : Prop :=
  k.seed = keystore.seed ∧ fee ≤ f ∧
    ∃ n, n + 2 * left ≤ 2 * maxFeeFitAttempts ∧
      k.nextIndex.toNat = (keystore.nextIndex.toNat + n) % 2 ^ 32

theorem planLoop_start : PlanLoop keystore fee maxFeeFitAttempts keystore fee :=
  ⟨rfl, UInt64.le_refl _, 0, by omega, (Nat.mod_eq_of_lt keystore.nextIndex.toNat_lt).symm⟩

theorem PlanLoop.next {left : ℕ} {k k' : Keystore} {f : UInt64}
    (hloop : PlanLoop keystore fee (left + 1) k f)
    (h : buildSendTransaction W coins k store amount f = some (.ok plan, k'))
    (hshort : f < requiredFee (Transaction.serializedSize W) plan.transaction) :
    PlanLoop keystore fee left k' (requiredFee (Transaction.serializedSize W) plan.transaction) := by
  obtain ⟨hseed, hfee, n, hn, hindex⟩ := hloop
  obtain ⟨hseed', -, hnext⟩ := indices_buildSendTransaction h
  refine ⟨hseed'.trans hseed, UInt64.le_trans hfee (UInt64.le_of_lt hshort), ?_⟩
  rcases hnext with ⟨-, hnext⟩ | ⟨-, -, -, hnext⟩
  · refine ⟨n + 1, by omega, ?_⟩
    rw [hnext, UInt32.toNat_add, hindex, UInt32.toNat_one]
    omega
  · refine ⟨n + 2, by omega, ?_⟩
    rw [hnext, UInt32.toNat_add, UInt32.toNat_add, hindex, UInt32.toNat_one]
    omega

/-- The indices of a plan have not been used before: with at most 32 of them taken, a counter that has
not gone down has not wrapped. -/
theorem PlanLoop.own_fresh {left : ℕ} {k k' : Keystore} {f : UInt64}
    (hloop : PlanLoop keystore fee (left + 1) k f)
    (h : buildSendTransaction W coins k store amount f = some (.ok plan, k'))
    (hu32 : keystore.nextIndex ≤ k'.nextIndex) :
    (plan.own.map PlannedOutput.index).Nodup ∧ ∀ o ∈ plan.own, keystore.nextIndex ≤ o.index := by
  obtain ⟨-, -, n, hn, hindex⟩ := hloop
  obtain ⟨-, hdest, hnew⟩ := indices_buildSendTransaction h
  have hstart := keystore.nextIndex.toNat_lt
  have hmax : maxFeeFitAttempts = 16 := rfl
  rw [UInt32.le_iff_toNat_le] at hu32
  rcases hnew with ⟨hnone, hlast⟩ | ⟨change, hsome, hchange, hlast⟩
  · have hown : plan.own = [plan.dest] := by
      rw [SendPlan.own, hnone]
      rfl
    rw [hlast, UInt32.toNat_add, hindex, UInt32.toNat_one] at hu32
    rw [hown]
    refine ⟨by simp, ?_⟩
    intro o ho
    rw [List.mem_singleton.mp ho, hdest, UInt32.le_iff_toNat_le, hindex]
    omega
  · have hown : plan.own = [plan.dest, change] := by
      rw [SendPlan.own, hsome]
      rfl
    rw [hlast, UInt32.toNat_add, UInt32.toNat_add, hindex, UInt32.toNat_one] at hu32
    have hne : plan.dest.index ≠ change.index := by
      rw [hdest, hchange, ne_eq, ← UInt32.toNat_inj, UInt32.toNat_add, hindex, UInt32.toNat_one]
      omega
    rw [hown]
    refine ⟨by simpa using hne, ?_⟩
    intro o ho
    rcases List.mem_cons.mp ho with rfl | ho
    · rw [hdest, UInt32.le_iff_toNat_le, hindex]
      omega
    · rw [List.mem_singleton.mp ho, hchange, UInt32.le_iff_toNat_le, UInt32.toNat_add, hindex,
        UInt32.toNat_one]
      omega

/-- What `select_spendable` takes are different outputs of the ledger that are not spent. -/
theorem selectSpendable_taken {target : UInt64} {selected : List (PlannedOutput P)}
    (hdistinct : store.outputs.Nodup) (h : selectSpendable store target = .ok selected) :
    ∃ taken : List (OwnedOutput P), taken.Nodup ∧
      (∀ o ∈ taken, o ∈ store.outputs ∧ (o.status = .confirmed ∨ o.status = .pending)) ∧
      selected = taken.map OwnedOutput.planned := by
  obtain ⟨taken, htaken, hselected, -⟩ := selectFrom_ok h
  refine ⟨taken, ?_, ?_, hselected⟩
  · have hsorted : store.spendableIncludingPending.Nodup :=
      (List.perm_insertionSort _ _).nodup_iff.mpr (hdistinct.filter _)
    exact hsorted.sublist htaken.sublist
  · intro o ho
    exact WalletStore.mem_spendableIncludingPending.mp (htaken.subset ho)

/-- Indices from the next one on belong to no output of the ledger but the two reserved ones. -/
theorem reserved_of_index_le {i : UInt32}
    (hnext : ∀ o ∈ store.outputs, o.index = genesisIndex ∨ o.index = faucetIndex ∨
      o.index < keystore.nextIndex)
    (hi : keystore.nextIndex ≤ i) {o : OwnedOutput P} (ho : o ∈ store.outputs) (hoi : o.index = i) :
    o.index = genesisIndex ∨ o.index = faucetIndex := by
  rcases hnext o ho with hreserved | hreserved | hlt
  · exact .inl hreserved
  · exact .inr hreserved
  · rw [hoi] at hlt
    exact absurd hi (UInt32.not_le.mpr hlt)

/-- **A plan to send.** What `plan_send` returns is valid, spends different outputs of the ledger,
balances, pays for its size and at least what was offered, and uses indices that were never used
before. That no index wraps is read off the keystore that comes back. -/
theorem planSend_correct {coins : ℕ → SendCoins W}
    (hnext : ∀ o ∈ store.outputs, o.index = genesisIndex ∨ o.index = faucetIndex ∨
      o.index < keystore.nextIndex)
    (hdistinct : store.outputs.Nodup) (hstore : WellFormed W keystore store)
    (h : planSend W coins keystore store amount fee = some (.ok plan, keystore'))
    (hu64 : ∀ k ∈ plan.transaction.kernels, FitsU64 store amount k.fee)
    (hu32 : keystore.nextIndex ≤ keystore'.nextIndex) :
    plan.transaction.validate = true ∧
    plan.transaction.spent = plan.spentCommitments ∧
    (∃ taken : List (OwnedOutput P), taken.Nodup ∧
      (∀ o ∈ taken, o ∈ store.outputs ∧ (o.status = .confirmed ∨ o.status = .pending)) ∧
      plan.spentCommitments = taken.map OwnedOutput.commitment ∧
      (store.commitments.Nodup → plan.spentCommitments.Nodup) ∧
      ∃ kernel, plan.transaction.kernels = [kernel] ∧
        (taken.map fun o => o.value.toNat).sum = amount.toNat + kernel.fee.toNat +
          ((plan.change.map PlannedOutput.value).getD 0).toNat ∧
        fee ≤ kernel.fee ∧
        requiredFee (Transaction.serializedSize W) plan.transaction ≤ kernel.fee) ∧
    (plan.own.map PlannedOutput.index).Nodup ∧
    ∀ o ∈ plan.own, keystore.nextIndex ≤ o.index ∧
      ∀ owned ∈ store.outputs, owned.index = o.index →
        owned.index = genesisIndex ∨ owned.index = faucetIndex := by
  -- the loop's invariant holds at the attempt that settled the fee; the rest is about this attempt
  obtain ⟨attempt, k, f, hloop, hbuild, hrequired⟩ := planSend_ok (Q := PlanLoop keystore fee)
    (fun _ _ _ _ _ hbuild hshort hloop => hloop.next hbuild hshort) planLoop_start h
  have hseed := hloop.1
  obtain ⟨selected, blindings, made, hselected, -, hmade, -, htx, -, hchange, hspent⟩ :=
    buildSendTransaction_ok hbuild
  have hstore' : WellFormed W k store := by
    intro o ho
    obtain ⟨r, hr, hcommitment⟩ := hstore o ho
    exact ⟨r, (blindingFor_congr hseed o.index).trans hr, hcommitment⟩
  -- the caller's assumption is about the fee in the kernel, which is that of the attempt
  have hfits : FitsU64 store amount f := by
    rw [htx] at hu64
    exact hu64 _ (List.mem_singleton_self _)
  obtain ⟨taken, hnodup, htaken, hselected'⟩ := selectSpendable_taken hdistinct hselected
  have htakenSpent : plan.spentCommitments = taken.map OwnedOutput.commitment := by
    rw [hspent, hselected', List.map_map]
    rfl
  refine ⟨validate_buildSendTransaction hstore' hfits hbuild, spent_planSend h,
    ⟨taken, hnodup, htaken, htakenSpent, ?_, _, by rw [htx], ?_, hloop.2.1, hrequired⟩, ?_⟩
  · intro hcommitments
    rw [htakenSpent]
    exact WalletStore.nodup_map_commitment hcommitments hnodup fun o ho => (htaken o ho).1
  · have hbalance := selected_balances hfits hselected
    have hvalue := value_makeChange (W := W) (coins attempt).change k.allocateIndex.2
      (totalValue selected - (amount + f))
    have hplanned : (made.1.map ChangeInfo.planned).map PlannedOutput.value =
        made.1.map ChangeInfo.value := by
      rw [Option.map_map]
      rfl
    rw [← hmade] at hvalue
    rw [hchange, hplanned, hvalue, ← hbalance, hselected', List.map_map]
    rfl
  · obtain ⟨hnodup, hge⟩ := hloop.own_fresh hbuild hu32
    exact ⟨hnodup, fun o ho => ⟨hge o ho, fun _ howned => reserved_of_index_le hnext (hge o ho) howned⟩⟩

end Plan

namespace Devnet

/-- Both outputs go into a payment of 100, and the fee is raised from five to nine. -/
theorem payer_sends :
    ∃ plan keystore', planSend wallet (fun _ => ⟨coins, coins, (5 : BitVec 256)⟩) payer payerStore 100 5 =
        some (.ok plan, keystore') ∧
      plan.transaction.validate = true ∧ plan.own.map PlannedOutput.index = [4, 5] ∧
      (plan.own.map PlannedOutput.index).Nodup := by
  have hrun : (planSend wallet (fun _ => ⟨coins, coins, (5 : BitVec 256)⟩) payer payerStore 100 5).map
      (fun made =>
        match made.1 with
        | .ok plan => decide (plan.transaction.kernels.map TxKernel.fee = [9] ∧
            plan.own.map PlannedOutput.index = [4, 5] ∧ payer.nextIndex ≤ made.2.nextIndex)
        | .error _ => false) = some true := by
    decide +kernel
  obtain ⟨⟨made, keystore'⟩, hmade, hplan⟩ := Option.map_eq_some_iff.mp hrun
  cases made with
  | error e => cases hplan
  | ok plan =>
      obtain ⟨hfees, hindices, hu32⟩ := of_decide_eq_true hplan
      have hu64 : ∀ k ∈ plan.transaction.kernels, FitsU64 payerStore 100 k.fee := by
        intro k hk
        have hfee : k.fee ∈ [(9 : UInt64)] := hfees ▸ List.mem_map_of_mem hk
        rw [List.mem_singleton.mp hfee]
        exact FitsU64.of_total (by decide) (by decide +kernel)
      have hnext : ∀ o ∈ payerStore.outputs, o.index = genesisIndex ∨ o.index = faucetIndex ∨
          o.index < payer.nextIndex := by
        decide +kernel
      have hdistinct : payerStore.outputs.Nodup := by decide +kernel
      obtain ⟨hvalid, -, -, hnodup, -⟩ :=
        planSend_correct hnext hdistinct payerStore_wellFormed hmade hu64 hu32
      exact ⟨plan, keystore', hmade, hvalid, hindices, hnodup⟩

end Devnet

end Haze
