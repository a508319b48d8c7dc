import Haze.Wallet.Planner

/-!
# Payments between two wallets (`wallet/src/slate.rs`)

The sender selects inputs, makes its change and publishes its excess and nonce as points; the receiver
makes its output and a partial signature; the sender adds its own and has a transaction. The sender
keeps a `PendingSlate` in between, and settles the fee before it knows the receiver, against a
placeholder of the same size.
-/

namespace Haze

variable {P : Crypto} {W : WalletCrypto P}

/-! ## Two-party signatures (`schnorr.rs`)

Each party signs with its own nonce and key under one challenge, which hashes the sums of both. The two
answers add up to a signature of the sum of the keys, because signing is linear in nonce and key. -/

namespace Schnorr

def computeChallenge (message : List UInt8) (publicKeyPoint noncePoint : P.Point) : P.Scalar :=
  P.challenge message (P.compress publicKeyPoint) (P.compress noncePoint)

def partialSign (nonce secretKey e : P.Scalar) : P.Scalar :=
  nonce + e * secretKey

def aggregate (partialSigs : List P.Scalar) (e : P.Scalar) : Signature P :=
  ⟨partialSigs.sum, e⟩

/-- Partial signatures with the challenge of the aggregate points add up to a signature. -/
theorem verify_aggregate (message : List UInt8) (k x k' x' : P.Scalar) {pk r : P.Point}
    (hpk : pk = x • P.BBlinding + x' • P.BBlinding)
    (hr : r = k • P.BBlinding + k' • P.BBlinding) :
    (aggregate [partialSign k x (computeChallenge message pk r),
      partialSign k' x' (computeChallenge message pk r)]
        (computeChallenge message pk r)).verify message ⟨pk⟩ = true := by
  generalize he : computeChallenge message pk r = e
  have hpoint : (partialSign k x e + partialSign k' x' e) • P.BBlinding - e • pk = r := by
    rw [hpk, hr]
    simp only [partialSign, add_smul, mul_smul, smul_add]
    abel
  simp only [aggregate, Signature.verify, List.sum_cons, List.sum_nil, add_zero, hpoint]
  rw [← he]
  simp [computeChallenge]

end Schnorr

/-! ## Slates

The sender's half is complete before the receiver is known: inputs, change and fee. Of the receiver's output
only the size is needed for the fee, and every output has the same. -/

/-- `slate_challenge_message`. -/
def slateChallengeMessage (fee : UInt64) : List UInt8 :=
  toLeBytes 8 fee.toNat

/-- What the two wallets exchange. -/
structure Slate (P : Crypto) where
  amount : UInt64
  fee : UInt64
  inputs : List (Input P)
  senderOutput : Option (Output P)
  senderExcessPoint : Commitment P
  senderNoncePoint : Commitment P
  receiverOutput : Option (Output P)
  receiverExcessPoint : Option (Commitment P)
  receiverNoncePoint : Option (Commitment P)
  receiverPartialSig : Option P.Scalar

/-- What the sender keeps to itself. -/
structure PendingSlate (P : Crypto) where
  fee : UInt64
  spentCommitments : List (Commitment P)
  change : Option (ChangeInfo P)
  excessBlinding : P.Scalar
  nonce : P.Scalar
  noncePoint : Commitment P

structure OwnedOutputInfo (P : Crypto) where
  index : UInt32
  value : UInt64
  commitment : Commitment P

inductive SlateError where
  | incompleteResponse
  deriving DecidableEq

/-- What one attempt to build a slate draws at random. -/
structure SlateCoins (W : WalletCrypto P) where
  change : OutputCoins W
  placeholder : OutputCoins W
  nonce : P.Scalar

/-- What stands for the receiver's output. Its note is sealed over nothing: only its length counts. -/
def placeholderOutput (W : WalletCrypto P) (coins : OutputCoins W) (noteKey : Bytes32)
    (amount : UInt64) : Output P :=
  ⟨Commitment.new amount 0, W.prove coins.proof amount 0, sealNote W noteKey coins.note 0 0⟩

/-- It takes the space of the output it stands for. -/
theorem serializedSize_placeholderOutput (coins coins' : OutputCoins W) (key key' : Bytes32)
    (index : UInt32) (amount value : UInt64) (r : P.Scalar) :
    (placeholderOutput W coins key amount).serializedSize W =
      (makeOutput W coins' key' index value r).serializedSize W := by
  rw [← serializedSize_makeOutput coins coins' key key' 0 index amount value 0 r]
  simp only [Output.serializedSize, placeholderOutput, makeOutput, sealNote, List.length_append,
    W.length_encrypt, Devnet.length_toLeBytes, List.Vector.toList_length]

/-- `build_slate`: the slate, what the sender keeps, and a transaction of the final size. -/
def buildSlate (W : WalletCrypto P) (coins : SlateCoins W) (keystore : Keystore)
    (store : WalletStore P) (amount fee : UInt64) :
    Option (Except PlanError ((Slate P × PendingSlate P) × Transaction P) × Keystore) :=
  let target := amount + fee
  match selectSpendable store target with
  | .error e => some (.error e, keystore)
  | .ok selected => do
      let blindings ← inputBlindings W keystore selected
      let (change, changeBlinding, keystore) :=
        makeChange W coins.change keystore (totalValue selected - target)
      let senderOutput := change.map ChangeInfo.output
      let excessBlinding := blindings.sum - changeBlinding
      let noncePoint : Commitment P := ⟨coins.nonce • P.BBlinding⟩
      let placeholder := placeholderOutput W coins.placeholder (keystore.noteKey W) amount
      let probe : Transaction P :=
        { inputs := plannedInputs selected
          outputs := senderOutput.toList ++ [placeholder]
          kernels := [⟨Commitment.new 0 excessBlinding, fee, Signature.zero⟩] }
      let slate : Slate P :=
        { amount := amount
          fee := fee
          inputs := plannedInputs selected
          senderOutput := senderOutput
          senderExcessPoint := Commitment.new 0 excessBlinding
          senderNoncePoint := noncePoint
          receiverOutput := none
          receiverExcessPoint := none
          receiverNoncePoint := none
          receiverPartialSig := none }
      let pending : PendingSlate P :=
        { fee := fee
          spentCommitments := selected.map PlannedOutput.commitment
          change := change
          excessBlinding := excessBlinding
          nonce := coins.nonce
          noncePoint := noncePoint }
      return (.ok ((slate, pending), probe), keystore)

def createSlate (W : WalletCrypto P) (coins : ℕ → SlateCoins W) (keystore : Keystore)
    (store : WalletStore P) (amount fee : UInt64) :
    Option (Except PlanError (Slate P × PendingSlate P) × Keystore) :=
  fitFee W (fun attempt keystore fee => buildSlate W (coins attempt) keystore store amount fee)
    (fun fee => .insufficientBalance (store.balance + store.pendingBalance) (amount + fee))
    maxFeeFitAttempts keystore fee

/-- What responding to a slate draws at random. -/
structure ResponseCoins (W : WalletCrypto P) where
  output : OutputCoins W
  nonce : P.Scalar

def respondToSlate (W : WalletCrypto P) (coins : ResponseCoins W) (keystore : Keystore)
    (slate : Slate P) : (Slate P × OwnedOutputInfo P) × Keystore :=
  let (outIndex, keystore) := keystore.allocateIndex
  let rOut := keystore.deriveBlinding W outIndex
  let output := makeOutput W coins.output (keystore.noteKey W) outIndex slate.amount rOut
  let kR := 0 - rOut
  let receiverExcessPoint : Commitment P := Commitment.new 0 kR
  let receiverNoncePoint : Commitment P := ⟨coins.nonce • P.BBlinding⟩
  let aggExcessPoint := slate.senderExcessPoint.asPoint + receiverExcessPoint.asPoint
  let aggNoncePoint := slate.senderNoncePoint.asPoint + receiverNoncePoint.asPoint
  let e := Schnorr.computeChallenge (slateChallengeMessage slate.fee) aggExcessPoint aggNoncePoint
  let response : Slate P :=
    { slate with
      receiverOutput := some output
      receiverExcessPoint := some receiverExcessPoint
      receiverNoncePoint := some receiverNoncePoint
      receiverPartialSig := some (Schnorr.partialSign coins.nonce kR e) }
  ((response, ⟨outIndex, slate.amount, output.commitment⟩), keystore)

namespace PendingSlate

variable (pending : PendingSlate P)

/-- The sum of the excess points. -/
def aggExcessPoint (receiverExcessPoint : Commitment P) : P.Point :=
  (Commitment.new 0 pending.excessBlinding).asPoint + receiverExcessPoint.asPoint

/-- The challenge that the sender signs: it depends on the points the receiver answers with. -/
def challenge (receiverExcessPoint receiverNoncePoint : Commitment P) : P.Scalar :=
  Schnorr.computeChallenge (slateChallengeMessage pending.fee)
    (pending.aggExcessPoint receiverExcessPoint)
    (pending.noncePoint.asPoint + receiverNoncePoint.asPoint)

/-- The transaction, once the receiver has answered. -/
def assemble (receiverOutput : Output P) (receiverExcessPoint receiverNoncePoint : Commitment P)
    (receiverPartialSig : P.Scalar) : Transaction P :=
  let e := pending.challenge receiverExcessPoint receiverNoncePoint
  let senderPartialSig := Schnorr.partialSign pending.nonce pending.excessBlinding e
  { inputs := pending.spentCommitments.map Input.mk
    outputs := (pending.change.map ChangeInfo.output).toList ++ [receiverOutput]
    kernels := [⟨⟨pending.aggExcessPoint receiverExcessPoint⟩, pending.fee,
      Schnorr.aggregate [senderPartialSig, receiverPartialSig] e⟩] }

/-- The output of the transaction that the sender gets. -/
def own : List (PlannedOutput P) :=
  (pending.change.map ChangeInfo.planned).toList

/-- What the sender does to its ledger when the transaction has been broadcast. -/
def commit (store : WalletStore P) : WalletStore P :=
  (store.markAllSpent pending.spentCommitments).addPending pending.own

end PendingSlate

def finalizeSlate (pending : PendingSlate P) (response : Slate P) :
    Except SlateError (Transaction P) := do
  let some receiverOutput := response.receiverOutput | throw .incompleteResponse
  let some receiverExcessPoint := response.receiverExcessPoint | throw .incompleteResponse
  let some receiverNoncePoint := response.receiverNoncePoint | throw .incompleteResponse
  let some receiverPartialSig := response.receiverPartialSig | throw .incompleteResponse
  return pending.assemble receiverOutput receiverExcessPoint receiverNoncePoint receiverPartialSig

/-- A transaction comes of a complete answer. -/
theorem finalizeSlate_ok {pending : PendingSlate P} {response : Slate P} {tx : Transaction P}
    (h : finalizeSlate pending response = .ok tx) :
    ∃ output excess nonce partialSig, response.receiverExcessPoint = some excess ∧
      response.receiverNoncePoint = some nonce ∧
      tx = pending.assemble output excess nonce partialSig := by
  unfold finalizeSlate at h
  split at h
  next output houtput =>
    split at h
    next excess hexcess =>
      split at h
      next nonce hnonce =>
        split at h
        next partialSig hsig =>
          exact ⟨output, excess, nonce, partialSig, hexcess, hnonce, (Except.ok.inj h).symm⟩
        · cases h
      · cases h
    · cases h
  · cases h

/-! ## A payment from end to end

The three functions run one after the other, with any receiver. The attempt that settled the fee is what the
transaction is made from, so what holds of an attempt carries over to the end. -/

section Payment

variable {coins : SlateCoins W} {keystore keystore' : Keystore} {store : WalletStore P}
  {amount fee : UInt64} {slate : Slate P} {pending : PendingSlate P} {probe : Transaction P}

/-- No `u64` sum of an attempt with this fee overflows. -/
structure FitsU64 (store : WalletStore P) (amount fee : UInt64) : Prop where
  target : amount.toNat + fee.toNat < 2 ^ 64
  selected : ∀ selected, selectSpendable store (amount + fee) = .ok selected →
    (selected.map fun o => o.value.toNat).sum < 2 ^ 64

/-- It is enough that the spendable outputs together fit. -/
theorem FitsU64.of_total (htarget : amount.toNat + fee.toNat < 2 ^ 64)
    (htotal : (store.spendableIncludingPending.map fun o => o.value.toNat).sum < 2 ^ 64) :
    FitsU64 store amount fee := by
  refine ⟨htarget, ?_⟩
  intro selected hselected
  obtain ⟨taken, ⟨rest, hrest⟩, rfl, -⟩ := selectFrom_ok hselected
  rw [← hrest, List.map_append, List.sum_append] at htotal
  rw [List.map_map]
  exact (Nat.le_add_right _ _).trans_lt htotal

/-- What comes out of an attempt, in terms of the outputs that were selected. -/
theorem buildSlate_ok
    (h : buildSlate W coins keystore store amount fee =
      some (.ok ((slate, pending), probe), keystore')) :
    ∃ selected blindings made, selectSpendable store (amount + fee) = .ok selected ∧
      inputBlindings W keystore selected = some blindings ∧
      made = makeChange W coins.change keystore (totalValue selected - (amount + fee)) ∧
      slate = ⟨amount, fee, plannedInputs selected, made.1.map ChangeInfo.output,
        Commitment.new 0 (blindings.sum - made.2.1), ⟨coins.nonce • P.BBlinding⟩, none, none, none,
        none⟩ ∧
      pending = ⟨fee, selected.map PlannedOutput.commitment, made.1, blindings.sum - made.2.1,
        coins.nonce, ⟨coins.nonce • P.BBlinding⟩⟩ ∧
      probe = ⟨plannedInputs selected, (made.1.map ChangeInfo.output).toList ++
          [placeholderOutput W coins.placeholder (made.2.2.noteKey W) amount],
        [⟨Commitment.new 0 (blindings.sum - made.2.1), fee, Signature.zero⟩]⟩ := by
  unfold buildSlate at h
  simp only at h
  split at h
  · simp at h
  next selected hselected =>
    simp only [Option.bind_eq_bind, Option.bind_eq_some_iff, Option.pure_def, Option.some.injEq,
      Prod.mk.injEq, Except.ok.injEq] at h
    obtain ⟨blindings, hblindings, ⟨⟨rfl, rfl⟩, rfl⟩, -⟩ := h
    exact ⟨selected, blindings, _, hselected, hblindings, rfl, rfl, rfl, rfl⟩

/-- An attempt leaves the seed alone. -/
theorem seed_buildSlate {r : Except PlanError ((Slate P × PendingSlate P) × Transaction P)}
    (h : buildSlate W coins keystore store amount fee = some (r, keystore')) :
    keystore'.seed = keystore.seed := by
  unfold buildSlate at h
  simp only at h
  split at h
  · obtain ⟨-, rfl⟩ := Prod.mk.inj (Option.some.inj h)
    rfl
  · simp only [Option.bind_eq_bind, Option.bind_eq_some_iff, Option.pure_def, Option.some.injEq,
      Prod.mk.injEq] at h
    obtain ⟨blindings, -, -, rfl⟩ := h
    exact seed_makeChange _ _ _

/-- A slate is one of the attempts to build it, at a fee that covers the size of the probe. -/
theorem createSlate_ok {coins : ℕ → SlateCoins W}
    (h : createSlate W coins keystore store amount fee = some (.ok (slate, pending), keystore')) :
    ∃ attempt keystore₁ fee₁ probe, keystore₁.seed = keystore.seed ∧
      buildSlate W (coins attempt) keystore₁ store amount fee₁ =
        some (.ok ((slate, pending), probe), keystore') ∧
      requiredFee (Transaction.serializedSize W) probe ≤ fee₁ := by
  refine fitFee_ok (Q := fun _ k _ => k.seed = keystore.seed) ?_ rfl h
  intro attempt keystore₁ fee₁ built tx keystore₂ hbuild _ hseed
  exact (seed_buildSlate hbuild).trans hseed

/-- The selected outputs come from the ledger. -/
theorem selectSpendable_mem {target : UInt64} {selected : List (PlannedOutput P)}
    (h : selectSpendable store target = .ok selected) :
    ∃ taken : List (OwnedOutput P), (∀ o ∈ taken, o ∈ store.outputs ∧ o.status ≠ .spent) ∧
      selected = taken.map OwnedOutput.planned := by
  obtain ⟨taken, htaken, hselected, -⟩ := selectFrom_ok h
  refine ⟨taken, ?_, hselected⟩
  intro o ho
  obtain ⟨hmem, hstatus⟩ := WalletStore.mem_spendableIncludingPending.mp (htaken.subset ho)
  refine ⟨hmem, ?_⟩
  rcases hstatus with hstatus | hstatus
  · simp [hstatus]
  · simp [hstatus]

/-- The values balance: what is selected is the amount, the fee and the change. -/
theorem selected_balances (hfits : FitsU64 store amount fee) {selected : List (PlannedOutput P)}
    (hselected : selectSpendable store (amount + fee) = .ok selected) :
    (selected.map fun o => o.value.toNat).sum =
      amount.toNat + fee.toNat + (totalValue selected - (amount + fee)).toNat := by
  have htarget : (amount + fee).toNat = amount.toNat + fee.toNat := by
    rw [UInt64.toNat_add, Nat.mod_eq_of_lt hfits.target]
  rw [← htarget]
  exact selectFrom_balances hselected (hfits.selected selected hselected)

/-- The change output commits to the value it is recorded with. -/
theorem commitment_makeChange {coins : OutputCoins W} {value : UInt64} {change : ChangeInfo P}
    (h : change ∈ (makeChange W coins keystore value).1) :
    change.output.commitment = Commitment.new change.value (keystore.deriveBlinding W change.index) := by
  unfold makeChange at h
  split at h
  · cases h
    rfl
  · cases h

/-- The partial signatures fit together, and the commitments balance: the two excesses are the blinding
factors of the inputs without those of the outputs. -/
theorem validate_assemble {selected : List (PlannedOutput P)} {blindings : List P.Scalar}
    {made : Option (ChangeInfo P) × P.Scalar × Keystore} {value : UInt64} {output : Output P}
    (k l r : P.Scalar)
    (hselected : Transaction.sumPoints (selected.map PlannedOutput.commitment) =
      (((selected.map fun o => o.value.toNat).sum : ℕ) : P.Scalar) • P.B +
        blindings.sum • P.BBlinding)
    (hsum : (selected.map fun o => o.value.toNat).sum = amount.toNat + fee.toNat + value.toNat)
    (hmade : Transaction.sumPoints ((made.1.map ChangeInfo.output).toList.map Output.commitment) =
      (value.toNat : P.Scalar) • P.B + made.2.1 • P.BBlinding)
    (hproofs : ∀ change ∈ made.1,
      verifyRangeProof change.output.proof change.output.commitment = true)
    (houtput : output.commitment = Commitment.new amount r)
    (hproof : verifyRangeProof output.proof output.commitment = true)
    (hpending : pending = ⟨fee, selected.map PlannedOutput.commitment, made.1,
      blindings.sum - made.2.1, k, ⟨k • P.BBlinding⟩⟩) :
    (pending.assemble output (Commitment.new 0 (0 - r)) ⟨l • P.BBlinding⟩
      (Schnorr.partialSign l (0 - r)
        (pending.challenge (Commitment.new 0 (0 - r)) ⟨l • P.BBlinding⟩))).validate = true := by
  subst hpending
  apply Transaction.validateWithReward_iff.mpr
  refine ⟨?_, ?_, ?_⟩
  · intro o ho
    rcases List.mem_append.mp ho with ho | ho
    · obtain ⟨change, hchange, rfl⟩ := Option.map_eq_some_iff.mp (Option.mem_toList.mp ho)
      exact hproofs change hchange
    · rw [List.mem_singleton.mp ho]
      exact hproof
  · intro kernel hkernel
    rw [List.mem_singleton.mp hkernel]
    apply Schnorr.verify_aggregate
    · simp [PendingSlate.aggExcessPoint, Commitment.new]
    · rfl
  · have hspent : Transaction.sumPoints
        (((selected.map PlannedOutput.commitment).map Input.mk).map Input.commitment) =
        Transaction.sumPoints (selected.map PlannedOutput.commitment) := by
      rw [List.map_map]
      simp [Function.comp_def]
    simp only [PendingSlate.assemble, PendingSlate.aggExcessPoint, Transaction.spent,
      Transaction.created, Transaction.excesses, Transaction.totalFee, List.map_append, List.map_cons,
      List.map_nil, Transaction.sumPoints_append, hspent, hselected, hsum, hmade, houtput]
    simp only [Transaction.sumPoints, Commitment.new, List.map_cons, List.map_nil, List.sum_cons,
      List.sum_nil, if_true, UInt64.toNat_zero, Nat.cast_zero, Nat.cast_add, add_smul, sub_smul,
      zero_smul, zero_add, add_zero]
    abel

/-- **A payment between two wallets.** A slate that was created can be answered by every receiver, and
the transaction that comes of it is valid, pays the amount, and pays for its size. -/
theorem slate_pays {coins : ℕ → SlateCoins W} (hstore : WellFormed W keystore store)
    (hcreate : createSlate W coins keystore store amount fee =
      some (.ok (slate, pending), keystore'))
    (hfits : FitsU64 store amount pending.fee) (receiver : Keystore) (answer : ResponseCoins W) :
    ∃ tx output, finalizeSlate pending (respondToSlate W answer receiver slate).1.1 = .ok tx ∧
      tx.validate = true ∧
      (tx.outputs = (pending.change.map ChangeInfo.output).toList ++ [output] ∧
        output.commitment =
          Commitment.new amount (receiver.deriveBlinding W receiver.nextIndex) ∧
        (respondToSlate W answer receiver slate).1.2 =
          ⟨receiver.nextIndex, amount, output.commitment⟩) ∧
      (tx.kernels.map TxKernel.fee = [pending.fee] ∧
        requiredFee (Transaction.serializedSize W) tx ≤ pending.fee) ∧
      (∀ change ∈ pending.change, change.output.commitment =
        Commitment.new change.value (keystore.deriveBlinding W change.index)) ∧
      ∃ taken : List (OwnedOutput P), (∀ o ∈ taken, o ∈ store.outputs) ∧
        tx.spent = taken.map OwnedOutput.commitment ∧
        (taken.map fun o => o.value.toNat).sum = amount.toNat + pending.fee.toNat +
          ((pending.change.map ChangeInfo.value).getD 0).toNat := by
  obtain ⟨attempt, keystore₁, fee₁, probe, hseed, hbuild, hfee⟩ := createSlate_ok hcreate
  obtain ⟨selected, blindings, made, hselected, hblindings, hmade, hslate, hpending, rfl⟩ :=
    buildSlate_ok hbuild
  obtain ⟨taken, htaken, rfl⟩ := selectSpendable_mem hselected
  have hfee₁ : pending.fee = fee₁ := by rw [hpending]
  rw [hfee₁] at hfits
  have hbalance := selected_balances hfits hselected
  -- the keystore has only moved its index since, so the inputs still open under the same keys
  have hopen : ∀ o ∈ taken.map OwnedOutput.planned, ∃ r, blindingFor W keystore₁ o.index = some r ∧
      o.commitment = Commitment.new o.value r := by
    intro o ho
    obtain ⟨owned, howned, rfl⟩ := List.mem_map.mp ho
    obtain ⟨r, hr, hcommitment⟩ := hstore owned (htaken owned howned).1
    exact ⟨r, (blindingFor_congr hseed owned.index).trans hr, hcommitment⟩
  have hfinal : finalizeSlate pending (respondToSlate W answer receiver slate).1.1 =
      .ok (pending.assemble
        (makeOutput W answer.output (receiver.noteKey W) receiver.nextIndex amount
          (receiver.deriveBlinding W receiver.nextIndex))
        (Commitment.new 0 (0 - receiver.deriveBlinding W receiver.nextIndex))
        ⟨answer.nonce • P.BBlinding⟩
        (Schnorr.partialSign answer.nonce (0 - receiver.deriveBlinding W receiver.nextIndex)
          (pending.challenge (Commitment.new 0 (0 - receiver.deriveBlinding W receiver.nextIndex))
            ⟨answer.nonce • P.BBlinding⟩))) := by
    subst hslate hpending
    rfl
  refine ⟨_, makeOutput W answer.output (receiver.noteKey W) receiver.nextIndex amount
      (receiver.deriveBlinding W receiver.nextIndex), hfinal, ?_, ⟨rfl, rfl, ?_⟩, ⟨rfl, ?_⟩, ?_,
      taken, fun o ho => (htaken o ho).1, ?_, ?_⟩
  · refine validate_assemble (coins attempt).nonce answer.nonce _
      (sumPoints_selected hblindings hopen) hbalance ?_ ?_ rfl ?_ hpending
    · rw [hmade]
      exact sumPoints_makeChange _ _ _
    · rw [hmade]
      exact verify_makeChange _ _ _
    · exact verify_makeOutput _ _ _ _ _
  · rw [hslate]
    rfl
  · -- the probe has the shape of the transaction
    rw [hfee₁]
    refine le_of_eq_of_le (requiredFee_congr ?_ ?_ ?_) hfee
    · simp [PendingSlate.assemble, hpending, plannedInputs]
    · simp only [PendingSlate.assemble, hpending, List.map_append, List.map_cons, List.map_nil]
      rw [serializedSize_placeholderOutput]
    · rfl
  · intro change hchange
    rw [hpending, hmade] at hchange
    have hcommitment := commitment_makeChange hchange
    simpa only [Keystore.deriveBlinding, hseed] using hcommitment
  · simp [PendingSlate.assemble, hpending, Transaction.spent, OwnedOutput.planned, Function.comp_def]
  · rw [hfee₁, hpending]
    dsimp only
    rw [hmade, value_makeChange]
    simpa [OwnedOutput.planned, Function.comp_def] using hbalance

end Payment

namespace Devnet

def payer : Keystore := ⟨natBytes 1, 2⟩

/-- Two outputs of sixty. -/
def payerStore : WalletStore crypto :=
  (WalletStore.new.addOutput 0 60 (Commitment.new 60 (payer.deriveBlinding wallet 0)) .confirmed).addOutput
    1 60 (Commitment.new 60 (payer.deriveBlinding wallet 1)) .pending

def slateCoins (nonce : BitVec 256) : SlateCoins wallet := ⟨coins, coins, nonce⟩

def payerSlate : Option (Except PlanError (Slate crypto × PendingSlate crypto) × Keystore) :=
  createSlate wallet (fun _ => slateCoins 5) payer payerStore 100 5

/-- The openings of a ledger, checked one by one. -/
theorem wellFormed_of_opens {keystore : Keystore} {store : WalletStore crypto}
    (h : ∀ o ∈ store.outputs, (blindingFor wallet keystore o.index).map (fun r =>
      decide (o.commitment = Commitment.new o.value r)) = some true) :
    WellFormed wallet keystore store := by
  intro o ho
  obtain ⟨r, hr, hcommitment⟩ := Option.map_eq_some_iff.mp (h o ho)
  exact ⟨r, hr, of_decide_eq_true hcommitment⟩

theorem payerStore_wellFormed : WellFormed wallet payer payerStore := by
  apply wellFormed_of_opens
  decide +kernel

/-- Both outputs are needed, and the fee has to be raised from five to nine. -/
theorem payerSlate_pays :
    ∃ slate pending keystore' tx, payerSlate = some (.ok (slate, pending), keystore') ∧
      pending.fee = 9 ∧
      finalizeSlate pending (respondToSlate wallet ⟨coins, (6 : BitVec 256)⟩ ⟨natBytes 2, 0⟩ slate).1.1 =
        .ok tx ∧ tx.validate = true := by
  have hrun : payerSlate.map (fun made =>
      match made.1 with
      | .ok (_, pending) => decide (pending.fee = 9)
      | .error _ => false) = some true := by
    decide +kernel
  obtain ⟨⟨made, keystore'⟩, hmade, hfee⟩ := Option.map_eq_some_iff.mp hrun
  cases made with
  | error e => cases hfee
  | ok made =>
      obtain ⟨slate, pending⟩ := made
      have hfee : pending.fee = 9 := of_decide_eq_true hfee
      have hfits : FitsU64 payerStore 100 pending.fee := by
        rw [hfee]
        exact FitsU64.of_total (by decide) (by decide +kernel)
      obtain ⟨tx, output, hfinal, hvalid, -⟩ := slate_pays payerStore_wellFormed hmade hfits
        ⟨natBytes 2, 0⟩ ⟨coins, (6 : BitVec 256)⟩
      exact ⟨slate, pending, keystore', tx, hmade, hfee, hfinal, hvalid⟩

end Devnet

end Haze
