import Haze.Api.Faucet
import Haze.Api.Submissions

/-!
# Sponsored registrations (`api/src/names.rs`)

A wallet without funds signs a registration, and the node's faucet pays for it. The handler touches three
things: the chain, which must not have the name and says which of the faucet's outputs are there; the
faucet's ledger, in which the outputs it pays with are marked; and the mempool, which may turn the
registration away after all, and then the marks are taken back.

The handler is one step here: it is run alone.
-/

namespace Haze

variable {P : Crypto} {W : WalletCrypto P}

/-! ## The handler

The order of the checks is that of the source: the name, the signature, the registry, then the reserve and
the mempool. -/

structure SponsoredRegisterRequest (P : Crypto) where
  name : String
  ownerPubkey : Commitment P
  resolvesTo : Commitment P
  signature : Signature P

/-- `suggested_name_fee`, which does not look at the mempool. -/
def Mempool.suggestedNameFee : UInt64 := nameRegistrationFee

/-- `FaucetState::reconcile`. -/
def FaucetState.reconcile (f : FaucetState P) (chain : ChainState P) : FaucetState P :=
  { f with store := f.store.reconcile chain.utxos }

/-- `handle_sponsored_register_name`; `none` is a panic. -/
def handleSponsoredRegisterName (W : WalletCrypto P) (coins : SponsorCoins W) (s : ChainState P)
    (req : SponsoredRegisterRequest P) (f : FaucetState P) (m : Mempool P) :
    Option (SubmitReply × FaucetState P × Mempool P) :=
  match validateName req.name with
  | .error e => some (.error 400 ("invalid name: " ++ e.debug), f, m)
  | .ok _ =>
      let msg := RegisterNameOp.signingMessage req.name
      if !req.signature.verify msg req.ownerPubkey then
        some (.error 400 "signature does not match owner_pubkey", f, m)
      else if req.name ∈ s.nameRegistry then
        some (.error 409 ("name '" ++ req.name ++ "' is already registered"), f, m)
      else
        match (f.reconcile s).buildSponsoredFeePayment W coins Mempool.suggestedNameFee with
        | none => none
        | some (.error _, f) =>
            some (.error 503 "sponsor reserve temporarily depleted - try again shortly", f, m)
        | some (.ok payment, f) =>
            let op : RegisterNameOp P :=
              ⟨req.name, req.ownerPubkey, req.resolvesTo, payment.transaction, req.signature⟩
            match m.addNameOp op with
            | none => some (.error 400 "name already pending registration", f.revertFeePayment payment, m)
            | some m => some (.queued, f, m)

/-! ## Reconciling

Reconciling changes statuses and nothing else, so a ledger stays in order under it. -/

section Reconcile

variable {f : FaucetState P} {s : ChainState P} {o : OwnedOutput P}

/-- What is confirmed after reconciling is a coin, and an output of the ledger. -/
theorem mem_spendable_reconcile (h : o ∈ (f.reconcile s).store.spendable) :
    o.commitment ∈ s.utxos ∧ o.commitment ∈ f.store.commitments := by
  obtain ⟨hmem, hconfirmed⟩ := WalletStore.mem_spendable.mp h
  obtain ⟨old, hold, rfl⟩ := List.mem_map.mp hmem
  refine ⟨?_, List.mem_map.mpr ⟨old, hold, rfl⟩⟩
  by_contra hgone
  cases hstatus : old.status <;>
    simp [WalletStore.reconciled, hstatus, hgone] at hconfirmed

theorem FaucetState.Regular.reconcile (h : f.Regular W) (s : ChainState P) : (f.reconcile s).Regular W := by
  refine ⟨?_, ?_, ?_⟩
  · show (f.store.reconcile s.utxos).commitments.Nodup
    rw [WalletStore.commitments_reconcile]
    exact h.distinct
  · intro o ho
    obtain ⟨old, hold, rfl⟩ := List.mem_map.mp ho
    exact h.wellFormed old hold
  · intro o ho
    obtain ⟨old, hold, rfl⟩ := List.mem_map.mp ho
    exact h.next old hold

end Reconcile

/-! ## What comes of a request

A request is queued when three parties agree: the chain has no such name, the mempool has room, and the
faucet can pay. In every other case the mempool stays as it was and the ledger is the one before, reconciled
at most. -/

/-- What a request asks for can be registered. -/
structure SponsoredRegisterRequest.Registrable (req : SponsoredRegisterRequest P) (s : ChainState P) :
    Prop where
  name : (validateName req.name).isOk = true
  signed : req.signature.verify (RegisterNameOp.signingMessage req.name) req.ownerPubkey = true
  free : req.name ∉ s.nameRegistry

/-- The mempool has room for it. -/
def Mempool.HasRoomFor (m : Mempool P) (name : String) : Prop :=
  m.pendingNameOps.length < maxPendingNameOps ∧ ∀ o ∈ m.pendingNameOps, o.name ≠ name

/-- A registration that the chain would take as it is, paid with the faucet's coins. -/
structure Registration (s : ChainState P) (f : FaucetState P) (req : SponsoredRegisterRequest P)
    (op : RegisterNameOp P) : Prop where
  asked : op.name = req.name ∧ op.ownerPubkey = req.ownerPubkey ∧ op.resolvesTo = req.resolvesTo ∧
    op.signature = req.signature
  fee : op.feePayment.kernels.map TxKernel.fee = [nameRegistrationFee]
  coins : ∀ c ∈ op.feePayment.spent, c ∈ s.utxos ∧ c ∈ f.store.commitments
  accepted : ∀ height, (s.checkNameOp height ⟨∅, ∅, s.nameRegistry⟩ op).isSome = true

section Sponsored

variable {s : ChainState P} {f f' : FaucetState P} {m : Mempool P} {req : SponsoredRegisterRequest P}
  {coins : SponsorCoins W} {payment : SponsoredPayment P}

/-- What the handler makes of a payment passes the checks of the mempool and the chain. -/
theorem validateStandalone_sponsored (hreq : req.Registrable s)
    (h : FaucetState.Sponsored (f.reconcile s) f' nameRegistrationFee payment) :
    RegisterNameOp.validateStandalone
      ⟨req.name, req.ownerPubkey, req.resolvesTo, payment.transaction, req.signature⟩ = .ok () := by
  obtain ⟨hname, hsigned, -⟩ := hreq
  have hvalid : validateName req.name = .ok () := by
    cases hresult : validateName req.name with
    | error e =>
        rw [hresult] at hname
        cases hname
    | ok u => rfl
  -- the payment has one kernel, and it carries the fee
  obtain ⟨k, hkernels, hfee⟩ : ∃ k, payment.transaction.kernels = [k] ∧ k.fee = nameRegistrationFee := by
    obtain ⟨k, hk, hfee⟩ := List.map_eq_singleton_iff.mp h.kernelFee
    exact ⟨k, hk, hfee⟩
  have hpaid : checkFeePayment nameRegistrationFee NameError.invalidFeePayment payment.transaction =
      .ok () := by
    have hcovers : ¬k.fee < nameRegistrationFee := by
      rw [hfee]
      exact UInt64.lt_irrefl _
    simp only [checkFeePayment, hkernels, if_neg hcovers, h.valid, if_true]
  simp only [RegisterNameOp.validateStandalone, hvalid, hsigned, hpaid, Bool.not_true,
    Bool.false_eq_true, if_false]
  rfl

theorem registration_sponsored (hregular : f.Regular W) (hreq : req.Registrable s)
    (h : FaucetState.Sponsored (f.reconcile s) f' nameRegistrationFee payment) :
    Registration s f req
      ⟨req.name, req.ownerPubkey, req.resolvesTo, payment.transaction, req.signature⟩ := by
  obtain ⟨taken, htaken, hspent, -, -⟩ := h.pays
  have hcoins : ∀ c ∈ payment.transaction.spent, c ∈ s.utxos ∧ c ∈ f.store.commitments := by
    rw [hspent]
    intro c hc
    obtain ⟨o, ho, rfl⟩ := List.mem_map.mp hc
    exact mem_spendable_reconcile (htaken.subset ho)
  refine ⟨⟨rfl, rfl, rfl, rfl⟩, h.kernelFee, hcoins, fun height => ?_⟩
  have hregular' := hregular.reconcile s
  -- the outputs spent are distinct entries of the ledger
  have hspendable : (f.reconcile s).store.spendable.Nodup :=
    (List.perm_insertionSort _ _).nodup_iff.mpr (hregular'.distinct.of_map _ |>.filter _)
  have hdistinct : payment.transaction.spent.Nodup := by
    rw [hspent]
    exact WalletStore.nodup_map_commitment hregular'.distinct (hspendable.sublist htaken.sublist)
      fun o ho => (WalletStore.mem_spendable.mp (htaken.subset ho)).1
  have hclaimed : Coins.claimAll s.utxos ∅ payment.transaction.spent =
      some (Coins.create ∅ payment.transaction.spent) :=
    Coins.claimAll_eq_some hdistinct (fun c hc => (hcoins c hc).1) fun c _ => Finset.notMem_empty c
  simp [ChainState.checkNameOp, validateStandalone_sponsored hreq h, hclaimed, hreq.free, Checked.ensure,
    Except.isOk, Except.toBool]

/-- The reserve suffices: some number of the largest confirmed values reaches the fee, within `u64`. -/
def FaucetState.Suffices (f : FaucetState P) (fee : UInt64) : Prop :=
  ∃ k, fee.toNat ≤ (f.store.confirmedValues.take k).sum ∧ (f.store.confirmedValues.take k).sum < 2 ^ 64

/-- A faucet whose payments can be made and taken back makes one exactly if its reserve suffices. -/
theorem buildSponsored_cases (hregular : f.Regular W) (coins : SponsorCoins W) {fee : UInt64}
    (hfunds : f.Sponsorable fee) :
    (¬f.Suffices fee ∧ ∃ e, f.buildSponsoredFeePayment W coins fee = some (.error e, f)) ∨
    f.Suffices fee ∧ ∃ payment f', f.buildSponsoredFeePayment W coins fee = some (.ok payment, f') ∧
      FaucetState.Sponsored f f' fee payment := by
  have hfails : (∃ e, selectSpendableConfirmedOnly f.store fee = .error e) ↔ _ := select_fails_iff
  cases hselect : selectSpendableConfirmedOnly f.store fee with
  -- the selection came to nothing
  | error e =>
      refine .inl ⟨?_, e, ?_⟩
      · rintro ⟨k, hcovers, hfits⟩
        have hshort := hfails.mp ⟨e, hselect⟩ k
        rw [Nat.mod_eq_of_lt hfits] at hshort
        exact Nat.not_le.mpr hshort hcovers
      · rw [FaucetState.buildSponsoredFeePayment, Haze.buildSponsoredFeePayment, hselect]
        rfl
  | ok selected =>
      have hcovers : ¬∀ k, (f.store.confirmedValues.take k).sum % 2 ^ 64 < fee.toNat := by
        intro hshort
        obtain ⟨e, he⟩ := hfails.mpr hshort
        cases he.symm.trans hselect
      obtain ⟨payment, keystore', store', hmade⟩ :=
        FaucetState.exists_sponsored coins hregular.wellFormed hselect
      refine .inr ⟨(hfunds.resolve_left hcovers).1, payment, ⟨keystore', store'⟩, ?_, ?_⟩
      · rw [FaucetState.buildSponsoredFeePayment, hmade]
        rfl
      · exact (FaucetState.sponsored_iff hregular.distinct hregular.wellFormed hselect hmade).mpr hfunds

/-- A request for what cannot be registered is refused before anything is touched. -/
theorem handleSponsored_of_not_registrable (coins : SponsorCoins W) (f : FaucetState P) (m : Mempool P)
    (hreq : ¬req.Registrable s) :
    ∃ status text, handleSponsoredRegisterName W coins s req f m = some (.error status text, f, m) := by
  unfold handleSponsoredRegisterName
  split
  · exact ⟨_, _, rfl⟩
  next u hname =>
    dsimp only
    split
    · exact ⟨_, _, rfl⟩
    next hsigned =>
      split
      · exact ⟨_, _, rfl⟩
      next hfree =>
        refine absurd ⟨?_, by simpa using hsigned, hfree⟩ hreq
        rw [hname]
        rfl

/-- Otherwise it is up to the faucet and then to the queue. -/
theorem handleSponsored_of_registrable (coins : SponsorCoins W) (f : FaucetState P) (m : Mempool P)
    (hreq : req.Registrable s) :
    handleSponsoredRegisterName W coins s req f m =
      ((f.reconcile s).buildSponsoredFeePayment W coins nameRegistrationFee).map fun
        | (.error _, f) => (.error 503 "sponsor reserve temporarily depleted - try again shortly", f, m)
        | (.ok payment, f) =>
            match m.addNameOp ⟨req.name, req.ownerPubkey, req.resolvesTo, payment.transaction,
                req.signature⟩ with
            | none => (.error 400 "name already pending registration", f.revertFeePayment payment, m)
            | some m => (.queued, f, m) := by
  obtain ⟨hname, hsigned, hfree⟩ := hreq
  unfold handleSponsoredRegisterName
  split
  next e herror =>
    rw [herror] at hname
    cases hname
  · simp only [hsigned, Bool.not_true, Bool.false_eq_true, if_false, if_neg hfree,
      Mempool.suggestedNameFee]
    rcases (f.reconcile s).buildSponsoredFeePayment W coins nameRegistrationFee with _ | ⟨_ | payment, f'⟩
    · rfl
    · rfl
    · dsimp only [Option.map_some]
      split <;> rfl

/-- The registration of a sponsored payment is queued if there is room. -/
theorem addNameOp_sponsored {op : RegisterNameOp P} (hvalid : op.validateStandalone = .ok ())
    (m : Mempool P) :
    (m.HasRoomFor op.name ∧
        m.addNameOp op = some { m with pendingNameOps := m.pendingNameOps ++ [op] }) ∨
      ¬m.HasRoomFor op.name ∧ m.addNameOp op = none := by
  have hisOk : op.validateStandalone.isOk = true := by
    rw [hvalid]
    rfl
  cases hadd : m.addNameOp op with
  | some m' =>
      obtain ⟨queue, hqueue, rfl⟩ := Option.map_eq_some_iff.mp hadd
      obtain ⟨⟨hroom, -, hclash⟩, rfl⟩ := Queue.add_eq_some.mp hqueue
      exact .inl ⟨⟨hroom, by simpa using hclash⟩, rfl⟩
  | none =>
      refine .inr ⟨fun hroom => ?_, rfl⟩
      have hclash : (m.pendingNameOps.any fun o => o.name == op.name) = false := by
        simpa using hroom.2
      rw [Mempool.addNameOp, Queue.add_eq_some.mpr ⟨⟨hroom.1, hisOk, hclash⟩, rfl⟩] at hadd
      cases hadd

/-- **A sponsored registration.** A faucet that is regular, and whose payments can be made and taken back,
is never asked for too much: the handler registers exactly what can be registered, paid for and queued,
and what it queues is a registration that the chain would take as it is. Otherwise it leaves the mempool
and, but for reconciling it, the faucet's ledger as they were. -/
theorem sponsored_registration (hregular : f.Regular W) (coins : SponsorCoins W) (s : ChainState P)
    (hfunds : (f.reconcile s).Sponsorable nameRegistrationFee) (req : SponsoredRegisterRequest P)
    (m : Mempool P) :
    ∃ reply f' m', handleSponsoredRegisterName W coins s req f m = some (reply, f', m') ∧
      (reply = .queued ↔ req.Registrable s ∧ m.HasRoomFor req.name ∧
        (f.reconcile s).Suffices nameRegistrationFee) ∧
      (reply = .queued → ∃ op, Registration s f req op ∧
        m' = { m with pendingNameOps := m.pendingNameOps ++ [op] }) ∧
      (reply ≠ .queued → m' = m ∧ (f'.store = f.store ∨ f'.store = (f.reconcile s).store)) := by
  by_cases hreq : req.Registrable s
  swap
  · obtain ⟨status, text, hrefused⟩ := handleSponsored_of_not_registrable coins f m hreq
    exact ⟨_, _, _, hrefused, iff_of_false nofun fun h => hreq h.1, nofun, fun _ => ⟨rfl, .inl rfl⟩⟩
  have hregular' := hregular.reconcile s
  have hhandler := handleSponsored_of_registrable coins f m hreq
  rcases buildSponsored_cases hregular' coins hfunds with
    ⟨hshort, e, hbuild⟩ | ⟨hsuffices, payment, f', hbuild, hpaid⟩
  -- the reserve is short
  · rw [hbuild, Option.map_some] at hhandler
    exact ⟨_, _, _, hhandler, iff_of_false nofun fun h => hshort h.2.2, nofun, fun _ => ⟨rfl, .inr rfl⟩⟩
  · rw [hbuild, Option.map_some] at hhandler
    have hvalid := validateStandalone_sponsored hreq hpaid
    -- paid, and the mempool decides
    rcases addNameOp_sponsored hvalid m with ⟨hroom, hadd⟩ | ⟨hfull, hadd⟩
    · simp only [hadd] at hhandler
      exact ⟨_, _, _, hhandler, iff_of_true rfl ⟨hreq, hroom, hsuffices⟩,
        fun _ => ⟨_, registration_sponsored hregular hreq hpaid, rfl⟩, fun h => absurd rfl h⟩
    · simp only [hadd] at hhandler
      exact ⟨_, _, _, hhandler, iff_of_false nofun fun h => hfull h.2.1, nofun,
        fun _ => ⟨rfl, .inr hpaid.restored⟩⟩

end Sponsored

namespace Devnet

/-- A wallet without funds asks for a name. -/
def aliceRequest : SponsoredRegisterRequest crypto :=
  let op := nameOp "alice" 3 ⟨[], [], []⟩
  ⟨op.name, op.ownerPubkey, op.resolvesTo, op.signature⟩

theorem alice_sponsored :
    ∃ f' m', handleSponsoredRegisterName wallet sponsorCoins (linear [genesis]) aliceRequest startedFaucet
        Mempool.new = some (.queued, f', m') ∧
      ∃ op, Registration (linear [genesis]) startedFaucet aliceRequest op ∧ m'.pendingNameOps = [op] := by
  have hsuffices : (startedFaucet.reconcile (linear [genesis])).Suffices nameRegistrationFee :=
    ⟨1, by decide +kernel, by decide +kernel⟩
  have hfunds : (startedFaucet.reconcile (linear [genesis])).Sponsorable nameRegistrationFee :=
    .inr ⟨hsuffices, .inr (by decide +kernel)⟩
  have hreq : aliceRequest.Registrable (linear [genesis]) :=
    ⟨by decide +kernel, by decide +kernel, by decide +kernel⟩
  obtain ⟨reply, f', m', hhandler, hqueued, hregistered, -⟩ := sponsored_registration
    startedFaucet_regular sponsorCoins (linear [genesis]) hfunds aliceRequest Mempool.new
  obtain rfl : reply = .queued :=
    hqueued.mpr ⟨hreq, ⟨by decide, List.forall_mem_nil _⟩, hsuffices⟩
  obtain ⟨op, hop, rfl⟩ := hregistered rfl
  exact ⟨f', _, hhandler, op, hop, rfl⟩

end Devnet

end Haze
