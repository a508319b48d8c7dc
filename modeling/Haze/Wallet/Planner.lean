import Haze.Mempool
import Haze.Wallet.Store

/-!
# Keys and plans (`wallet/src/keystore.rs`, `planner.rs`, `crypto/src/note.rs`)

A wallet derives the blinding factor of each output from its seed and the output's index. To pay, it
takes outputs from its ledger, the largest first, until they cover the amount and the fee, and puts
what is left over into a change output. The fee has to cover the size of the transaction that comes
out, so the planner starts again with a higher fee when it does not, up to sixteen times.

What the source draws at random is an argument. Sums are `u64` sums and wrap, as in the release build;
`none` is a panic.
-/

namespace Haze

variable {P : Crypto}

/-- What the wallet takes from its dependencies and its environment, beyond what the node does. -/
structure WalletCrypto (P : Crypto) where
  sha512 : List UInt8 → List.Vector UInt8 64
  /-- `Scalar::from_bytes_mod_order_wide`. -/
  fromBytesModOrderWide : List.Vector UInt8 64 → P.Scalar
  /-- What `prove_single` draws at random. -/
  ProofCoins : Type
  /-- `RangeProof::prove`. -/
  prove : ProofCoins → UInt64 → P.Scalar → P.RangeProof
  /-- `RangeProof::to_bytes`. -/
  proofBytes : P.RangeProof → List UInt8
  /-- `ChaCha20Poly1305::encrypt`, by key, nonce and plaintext. -/
  encrypt : Bytes32 → List.Vector UInt8 12 → List UInt8 → List UInt8
  /-- `treasury_blinding_from_env()`. -/
  treasuryBlinding : Option P.Scalar
  verify_prove : ∀ coins value r,
    P.verifyRange (prove coins value r) (P.compress (Commitment.new value r).asPoint) = true
  /-- A 64-bit proof has the same length for every value. -/
  length_proofBytes : ∀ coins value r coins' value' r',
    (proofBytes (prove coins value r)).length = (proofBytes (prove coins' value' r')).length
  /-- The tag takes sixteen bytes. -/
  length_encrypt : ∀ key nonce plaintext, (encrypt key nonce plaintext).length = plaintext.length + 16

variable {W : WalletCrypto P}

/-! ## Keys

Every blinding factor is a hash of the seed and an index, except for the two well-known outputs. The genesis
output has a fixed one, and the reserve's is set from outside; asking for it when it is not set is a panic.
-/

structure Keystore where
  seed : Bytes32
  nextIndex : UInt32
  deriving DecidableEq

namespace Keystore

variable (keystore : Keystore)

def deriveBlinding (W : WalletCrypto P) (index : UInt32) : P.Scalar :=
  W.fromBytesModOrderWide (W.sha512
    (asBytes "Haze Wallet Output Blinding" ++ keystore.seed.toList ++ toLeBytes 4 index.toNat))

def noteKey (W : WalletCrypto P) : Bytes32 :=
  (W.sha512 (asBytes "Haze Wallet Note Key" ++ keystore.seed.toList)).take 32

def allocateIndex : UInt32 × Keystore :=
  (keystore.nextIndex, { keystore with nextIndex := keystore.nextIndex + 1 })

def ensureNextIndexAtLeast (min : UInt32) : Keystore :=
  if keystore.nextIndex < min then { keystore with nextIndex := min } else keystore

end Keystore

/-- `blinding_for`; a panic when the reserve of the faucet is asked for and its secret is not set. -/
def blindingFor (W : WalletCrypto P) (keystore : Keystore) (index : UInt32) : Option P.Scalar :=
  if index = genesisIndex then some (42 : ℕ)
  else if index = faucetIndex then W.treasuryBlinding
  else some (keystore.deriveBlinding W index)

/-! ## Outputs

An output is a commitment, a proof of its range and a note for its owner. The index of the change is
allocated only if there is something to change. -/

/-- What making one output draws at random. -/
structure OutputCoins (W : WalletCrypto P) where
  proof : W.ProofCoins
  note : List.Vector UInt8 12

/-- `note::seal`: the nonce, then the encrypted index and value. -/
def sealNote (W : WalletCrypto P) (noteKey : Bytes32) (nonce : List.Vector UInt8 12) (index : UInt32)
    (value : UInt64) : List UInt8 :=
  nonce.toList ++ W.encrypt noteKey nonce (toLeBytes 4 index.toNat ++ toLeBytes 8 value.toNat)

/-- An output with its proof and its note. -/
def makeOutput (W : WalletCrypto P) (coins : OutputCoins W) (noteKey : Bytes32) (index : UInt32)
    (value : UInt64) (blinding : P.Scalar) : Output P :=
  ⟨Commitment.new value blinding, W.prove coins.proof value blinding,
    sealNote W noteKey coins.note index value⟩

structure ChangeInfo (P : Crypto) where
  index : UInt32
  output : Output P
  value : UInt64

/-- The change output, when something is left over: with its blinding factor, and the keystore after
its index has been allocated. -/
def makeChange (W : WalletCrypto P) (coins : OutputCoins W) (keystore : Keystore) (value : UInt64) :
    Option (ChangeInfo P) × P.Scalar × Keystore :=
  if value > 0 then
    let (index, keystore) := keystore.allocateIndex
    let blinding := keystore.deriveBlinding W index
    (some ⟨index, makeOutput W coins (keystore.noteKey W) index value blinding, value⟩, blinding,
      keystore)
  else (none, 0, keystore)

section Made

variable (coins : OutputCoins W) (keystore : Keystore) (value : UInt64)

theorem verify_makeOutput (noteKey : Bytes32) (index : UInt32) (blinding : P.Scalar) :
    verifyRangeProof (makeOutput W coins noteKey index value blinding).proof
      (makeOutput W coins noteKey index value blinding).commitment = true :=
  W.verify_prove coins.proof value blinding

theorem verify_makeChange :
    ∀ change ∈ (makeChange W coins keystore value).1,
      verifyRangeProof change.output.proof change.output.commitment = true := by
  intro change hchange
  unfold makeChange at hchange
  split at hchange
  · cases hchange
    exact verify_makeOutput coins value _ _ _
  · cases hchange

/-- With or without a change output, it takes up what is left over. -/
theorem sumPoints_makeChange :
    Transaction.sumPoints (((makeChange W coins keystore value).1.map ChangeInfo.output).toList.map
        Output.commitment) =
      (value.toNat : P.Scalar) • P.B + (makeChange W coins keystore value).2.1 • P.BBlinding := by
  unfold makeChange
  split
  · simp [Transaction.sumPoints, makeOutput, Commitment.new]
  next hzero =>
    have h0 : value = 0 := by
      rw [← UInt64.toNat_inj, UInt64.toNat_zero]
      rw [gt_iff_lt, UInt64.lt_iff_toNat_lt, UInt64.toNat_zero] at hzero
      omega
    simp [h0]

theorem value_makeChange :
    ((makeChange W coins keystore value).1.map ChangeInfo.value).getD 0 = value := by
  unfold makeChange
  split
  · rfl
  next hzero =>
    rw [gt_iff_lt, UInt64.lt_iff_toNat_lt, UInt64.toNat_zero] at hzero
    show 0 = value
    rw [← UInt64.toNat_inj, UInt64.toNat_zero]
    omega

@[simp] theorem seed_makeChange : (makeChange W coins keystore value).2.2.seed = keystore.seed := by
  unfold makeChange
  split
  · rfl
  · rfl

end Made

theorem blindingFor_congr {keystore keystore' : Keystore} (h : keystore'.seed = keystore.seed)
    (index : UInt32) : blindingFor W keystore' index = blindingFor W keystore index := by
  simp only [blindingFor, Keystore.deriveBlinding, h]

/-! ## Sizes

Fees go by the size of the serialized transaction. Every output takes the same number of bytes, so the size
depends on how many inputs and outputs there are and not on what they hide. -/

/-- The bytes of an output: commitment, proof and note, each with its length. -/
def Output.serializedSize (W : WalletCrypto P) (o : Output P) : ℕ :=
  40 + (8 + (W.proofBytes o.proof).length) + (8 + o.note.length)

/-- `bincode::serialized_size` of a transaction: an input takes 40 bytes, a kernel 120. -/
def Transaction.serializedSize (W : WalletCrypto P) (tx : Transaction P) : Option UInt64 :=
  some (UInt64.ofNat ((8 + 40 * tx.inputs.length) +
    (8 + (tx.outputs.map (Output.serializedSize W)).sum) + (8 + 120 * tx.kernels.length)))

/-- Whoever makes it, and whatever it hides, an output takes the same space. -/
theorem serializedSize_makeOutput (coins coins' : OutputCoins W) (key key' : Bytes32)
    (index index' : UInt32) (value value' : UInt64) (r r' : P.Scalar) :
    (makeOutput W coins key index value r).serializedSize W =
      (makeOutput W coins' key' index' value' r').serializedSize W := by
  have hproof := W.length_proofBytes coins.proof value r coins'.proof value' r'
  simp only [Output.serializedSize, makeOutput, sealNote, List.length_append, W.length_encrypt,
    Devnet.length_toLeBytes, List.Vector.toList_length, hproof]

theorem requiredFee_congr {tx tx' : Transaction P} (hinputs : tx.inputs.length = tx'.inputs.length)
    (houtputs : tx.outputs.map (Output.serializedSize W) = tx'.outputs.map (Output.serializedSize W))
    (hkernels : tx.kernels.length = tx'.kernels.length) :
    requiredFee (Transaction.serializedSize W) tx = requiredFee (Transaction.serializedSize W) tx' := by
  simp only [requiredFee, Transaction.serializedSize, hinputs, houtputs, hkernels]

/-! ## Taking outputs

The planner works with a copy of what it needs of each output. What was taken is marked and what was made is
added in the ledger later, by the caller, when the transaction has been sent. -/

/-- `(index, commitment, value)`. -/
structure PlannedOutput (P : Crypto) where
  index : UInt32
  commitment : Commitment P
  value : UInt64
  deriving DecidableEq

def OwnedOutput.planned (o : OwnedOutput P) : PlannedOutput P :=
  ⟨o.index, o.commitment, o.value⟩

def ChangeInfo.planned (change : ChangeInfo P) : PlannedOutput P :=
  ⟨change.index, change.output.commitment, change.value⟩

/-- `store.add_output(index, value, commitment, OutputStatus::Pending)` for each output. -/
def WalletStore.addPending (store : WalletStore P) (own : List (PlannedOutput P)) : WalletStore P :=
  own.foldl (fun store o => store.addOutput o.index o.value o.commitment .pending) store

namespace WalletStore

variable {store : WalletStore P} {own : List (PlannedOutput P)} {c : Commitment P}

@[simp] theorem commitments_addPending :
    (store.addPending own).commitments = store.commitments ++ own.map PlannedOutput.commitment := by
  induction own generalizing store with
  | nil => simp [addPending]
  | cons o own ih =>
      refine ih.trans ?_
      rw [commitments_addOutput, List.append_assoc, List.map_cons, List.singleton_append]

/-- Marks change nothing but statuses. -/
theorem planned_markAllSpent {cs : List (Commitment P)} :
    (store.markAllSpent cs).outputs.map OwnedOutput.planned = store.outputs.map OwnedOutput.planned := by
  induction cs generalizing store with
  | nil => rfl
  | cons c cs ih =>
      refine ih.trans ?_
      apply map_updateFirst
      intro o
      rfl

theorem planned_addPending :
    (store.addPending own).outputs.map OwnedOutput.planned =
      store.outputs.map OwnedOutput.planned ++ own := by
  induction own generalizing store with
  | nil => simp [addPending]
  | cons o own ih =>
      refine ih.trans ?_
      simp [addOutput, OwnedOutput.planned]

theorem statusOf_addPending_of_mem (h : c ∈ store.commitments) :
    (store.addPending own).statusOf c = store.statusOf c := by
  induction own generalizing store with
  | nil => rfl
  | cons o own ih =>
      refine (ih ?_).trans (statusOf_addOutput_of_mem h)
      rw [commitments_addOutput]
      exact List.mem_append_left _ h

end WalletStore

inductive PlanError where
  | insufficientBalance (have_ need : UInt64)
  deriving DecidableEq

/-- Take outputs until their total reaches the target. -/
def takeUntil (target : UInt64) : UInt64 → List (OwnedOutput P) → List (PlannedOutput P) × UInt64
  | total, [] => ([], total)
  | total, o :: rest =>
      if total ≥ target then ([], total)
      else
        let (selected, total) := takeUntil target (total + o.value) rest
        (o.planned :: selected, total)

/-- What `select_spendable` and `select_spendable_confirmed_only` share. -/
def selectFrom (store : WalletStore P) (outputs : List (OwnedOutput P)) (target : UInt64) :
    Except PlanError (List (PlannedOutput P)) :=
  let (selected, total) := takeUntil target 0 outputs
  if total < target then .error (.insufficientBalance (store.balance + store.pendingBalance) target)
  else .ok selected

def selectSpendable (store : WalletStore P) (target : UInt64) :
    Except PlanError (List (PlannedOutput P)) :=
  selectFrom store store.spendableIncludingPending target

def selectSpendableConfirmedOnly (store : WalletStore P) (target : UInt64) :
    Except PlanError (List (PlannedOutput P)) :=
  selectFrom store store.spendable target

/-- `selected.iter().map(|(_, _, value)| value).sum()`. -/
def totalValue (selected : List (PlannedOutput P)) : UInt64 :=
  (selected.map PlannedOutput.value).sum

def plannedInputs (selected : List (PlannedOutput P)) : List (Input P) :=
  selected.map fun o => ⟨o.commitment⟩

def inputBlindings (W : WalletCrypto P) (keystore : Keystore) (selected : List (PlannedOutput P)) :
    Option (List P.Scalar) :=
  selected.mapM fun o => blindingFor W keystore o.index

/-- The total comes from a first part of the outputs. -/
theorem takeUntil_spec (target total : UInt64) (outputs : List (OwnedOutput P)) :
    ∃ taken, taken <+: outputs ∧ (takeUntil target total outputs).1 = taken.map OwnedOutput.planned ∧
      (takeUntil target total outputs).2 = total + totalValue (taken.map OwnedOutput.planned) := by
  induction outputs generalizing total with
  | nil => exact ⟨[], List.prefix_rfl, rfl, by simp [takeUntil, totalValue]⟩
  | cons o rest ih =>
      rw [takeUntil]
      split
      · exact ⟨[], List.nil_prefix, rfl, by simp [totalValue]⟩
      · obtain ⟨taken, htaken, hselected, htotal⟩ := ih (total + o.value)
        refine ⟨o :: taken, List.cons_prefix_cons.mpr ⟨rfl, htaken⟩, ?_, ?_⟩
        · rw [List.map_cons, ← hselected]
        · rw [htotal, List.map_cons, totalValue, totalValue, List.map_cons, List.sum_cons, add_assoc]
          rfl

/-- The loop falls short exactly if every first part does. -/
theorem takeUntil_lt_iff (target total : UInt64) (outputs : List (OwnedOutput P)) :
    (takeUntil target total outputs).2 < target ↔
      ∀ k, total + totalValue ((outputs.take k).map OwnedOutput.planned) < target := by
  induction outputs generalizing total with
  | nil => simp [takeUntil, totalValue]
  | cons o rest ih =>
      have hnext : ∀ k, total + totalValue (((o :: rest).take (k + 1)).map OwnedOutput.planned) =
          total + o.value + totalValue ((rest.take k).map OwnedOutput.planned) := by
        intro k
        rw [List.take_succ_cons, List.map_cons, totalValue, totalValue, List.map_cons, List.sum_cons,
          add_assoc]
        rfl
      rw [takeUntil]
      by_cases hdone : total ≥ target
      · rw [if_pos hdone]
        refine iff_of_false (UInt64.not_lt.mpr hdone) ?_
        intro hall
        have hstart := hall 0
        rw [List.take_zero, List.map_nil, totalValue, List.map_nil, List.sum_nil, add_zero] at hstart
        exact UInt64.not_lt.mpr hdone hstart
      · rw [if_neg hdone]
        refine (ih (total + o.value)).trans ?_
        constructor
        · intro hall k
          cases k with
          | zero =>
              rw [List.take_zero, List.map_nil, totalValue, List.map_nil, List.sum_nil, add_zero]
              exact UInt64.not_le.mp hdone
          | succ k =>
              rw [hnext]
              exact hall k
        · intro hall k
          rw [← hnext]
          exact hall (k + 1)

/-- What is selected is a first part of the outputs offered, and covers the target. -/
theorem selectFrom_ok {store : WalletStore P} {outputs : List (OwnedOutput P)} {target : UInt64}
    {selected : List (PlannedOutput P)} (h : selectFrom store outputs target = .ok selected) :
    ∃ taken, taken <+: outputs ∧ selected = taken.map OwnedOutput.planned ∧
      target ≤ totalValue selected := by
  obtain ⟨taken, htaken, hselected, htotal⟩ := takeUntil_spec target 0 outputs
  unfold selectFrom at h
  simp only at h
  split at h
  · cases h
  next hcovered =>
    obtain rfl := Except.ok.inj h
    refine ⟨taken, htaken, hselected, ?_⟩
    rw [htotal, zero_add, ← hselected] at hcovered
    exact UInt64.not_lt.mp hcovered

/-- Every output of the ledger opens with the blinding factor of its index. -/
def WellFormed (W : WalletCrypto P) (keystore : Keystore) (store : WalletStore P) : Prop :=
  ∀ o ∈ store.outputs, ∃ r, blindingFor W keystore o.index = some r ∧
    o.commitment = Commitment.new o.value r

theorem inputBlindings_of_forall {keystore : Keystore} {selected : List (PlannedOutput P)}
    (h : ∀ o ∈ selected, ∃ r, blindingFor W keystore o.index = some r) :
    ∃ blindings, inputBlindings W keystore selected = some blindings := by
  induction selected with
  | nil => exact ⟨[], rfl⟩
  | cons o selected ih =>
      obtain ⟨⟨r, hr⟩, hrest⟩ := List.forall_mem_cons.mp h
      obtain ⟨blindings, hblindings⟩ := ih hrest
      refine ⟨r :: blindings, ?_⟩
      rw [inputBlindings] at hblindings
      rw [inputBlindings, List.mapM_cons, hr, hblindings]
      rfl

/-- The inputs add up to their values and their blinding factors. -/
theorem sumPoints_selected {keystore : Keystore} {selected : List (PlannedOutput P)}
    {blindings : List P.Scalar} (h : inputBlindings W keystore selected = some blindings)
    (hopen : ∀ o ∈ selected, ∃ r, blindingFor W keystore o.index = some r ∧
      o.commitment = Commitment.new o.value r) :
    Transaction.sumPoints (selected.map PlannedOutput.commitment) =
      (((selected.map fun o => o.value.toNat).sum : ℕ) : P.Scalar) • P.B +
        blindings.sum • P.BBlinding := by
  induction selected generalizing blindings with
  | nil =>
      obtain rfl : [] = blindings := Option.some.inj h
      simp
  | cons o selected ih =>
      simp only [inputBlindings, List.mapM_cons, Option.bind_eq_bind, Option.bind_eq_some_iff,
        Option.pure_def, Option.some.injEq] at h
      obtain ⟨r, hr, rest, hrest, rfl⟩ := h
      obtain ⟨⟨r', hr', hcommitment⟩, hopen⟩ := List.forall_mem_cons.mp hopen
      obtain rfl : r = r' := Option.some.inj (hr.symm.trans hr')
      have hsum := ih hrest hopen
      rw [List.map_cons, List.map_cons, List.sum_cons, List.sum_cons, ← List.singleton_append,
        Transaction.sumPoints_append, hsum, hcommitment]
      simp only [Transaction.sumPoints, List.map_cons, List.map_nil, List.sum_cons, List.sum_nil,
        Commitment.new, Nat.cast_add, add_smul, add_zero]
      abel

/-- What is paid with the selected outputs is valid, when it opens to their values without the fee and the
kernel takes up the rest of their blinding factors. -/
theorem validate_selected {keystore : Keystore} {selected : List (PlannedOutput P)}
    {blindings : List P.Scalar} {outputs : List (Output P)} {value : ℕ} {r : P.Scalar} {fee : UInt64}
    (hblindings : inputBlindings W keystore selected = some blindings)
    (hopen : ∀ o ∈ selected, ∃ r, blindingFor W keystore o.index = some r ∧
      o.commitment = Commitment.new o.value r)
    (hproofs : ∀ o ∈ outputs, verifyRangeProof o.proof o.commitment = true)
    (houtputs : Transaction.sumPoints (outputs.map Output.commitment) =
      (value : P.Scalar) • P.B + r • P.BBlinding)
    (hbalance : (selected.map fun o => o.value.toNat).sum = value + fee.toNat) (nonce : P.Scalar) :
    Transaction.validate ⟨plannedInputs selected, outputs,
      [⟨Commitment.new 0 (blindings.sum - r), fee,
        Signature.sign (toLeBytes 8 fee.toNat) (blindings.sum - r) nonce⟩]⟩ = true := by
  apply Transaction.validateWithReward_iff.mpr
  refine ⟨hproofs, ?_, ?_⟩
  · intro kernel hkernel
    rw [List.mem_singleton.mp hkernel]
    exact Transaction.kernelSigned_sign _ _ _
  · have hinputs : Transaction.sumPoints ((plannedInputs selected).map Input.commitment) =
        Transaction.sumPoints (selected.map PlannedOutput.commitment) := by
      simp [plannedInputs, Function.comp_def]
    simp only [Transaction.spent, Transaction.created, Transaction.excesses, Transaction.totalFee,
      hinputs, sumPoints_selected hblindings hopen, houtputs, hbalance]
    simp only [Transaction.sumPoints, Commitment.new, List.map_cons, List.map_nil, List.sum_cons,
      List.sum_nil, if_true, UInt64.toNat_zero, Nat.cast_zero, Nat.cast_add, add_smul, sub_smul,
      zero_smul, zero_add, add_zero]
    abel

/-- Below the limit, the `u64` sum is the sum. -/
theorem toNat_totalValue {selected : List (PlannedOutput P)}
    (h : (selected.map fun o => o.value.toNat).sum < 2 ^ 64) :
    (totalValue selected).toNat = (selected.map fun o => o.value.toNat).sum := by
  rw [totalValue, toNat_sum, List.map_map]
  exact Nat.mod_eq_of_lt h

/-- The values balance: what is selected is the target and what is left over. -/
theorem selectFrom_balances {store : WalletStore P} {outputs : List (OwnedOutput P)} {target : UInt64}
    {selected : List (PlannedOutput P)} (h : selectFrom store outputs target = .ok selected)
    (hfits : (selected.map fun o => o.value.toNat).sum < 2 ^ 64) :
    (selected.map fun o => o.value.toNat).sum =
      target.toNat + (totalValue selected - target).toNat := by
  obtain ⟨-, -, -, hcovered⟩ := selectFrom_ok h
  have hsum := toNat_totalValue hfits
  have hchange := UInt64.toNat_sub_of_le _ _ hcovered
  rw [UInt64.le_iff_toNat_le] at hcovered
  omega

/-! ## Fitting the fee

The fee is paid from the same outputs as the amount, so a higher fee may take one output more, which makes
the transaction larger and asks for a higher fee again. The loop ends when the fee covers the size, or after
sixteen attempts. -/

def maxFeeFitAttempts : ℕ := 16

/-- The loop of `plan_send` and `create_slate`: build, and build again with the fee that the size of
what came out requires. The attempts are counted down. -/
def fitFee {α : Type} (W : WalletCrypto P)
    (build : ℕ → Keystore → UInt64 → Option (Except PlanError (α × Transaction P) × Keystore))
    (giveUp : UInt64 → PlanError) : ℕ → Keystore → UInt64 → Option (Except PlanError α × Keystore)
  | 0, keystore, fee => some (.error (giveUp fee), keystore)
  | attempts + 1, keystore, fee =>
      match build attempts keystore fee with
      | none => none
      | some (.error e, keystore) => some (.error e, keystore)
      | some (.ok (built, tx), keystore) =>
          let required := requiredFee (Transaction.serializedSize W) tx
          if fee ≥ required then some (.ok built, keystore)
          else fitFee W build giveUp attempts keystore required

/-- A result of the loop is one of its attempts, and its fee covers its size. `Q` is an invariant of
the loop: the attempts left, the keystore and the fee. -/
theorem fitFee_ok {α : Type} {Q : ℕ → Keystore → UInt64 → Prop}
    {build : ℕ → Keystore → UInt64 → Option (Except PlanError (α × Transaction P) × Keystore)}
    {giveUp : UInt64 → PlanError}
    (hbuild : ∀ attempt keystore fee built tx keystore',
      build attempt keystore fee = some (.ok (built, tx), keystore') →
      fee < requiredFee (Transaction.serializedSize W) tx → Q (attempt + 1) keystore fee →
      Q attempt keystore' (requiredFee (Transaction.serializedSize W) tx))
    {attempts : ℕ} {keystore keystore' : Keystore} {fee : UInt64} {built : α}
    (hQ : Q attempts keystore fee)
    (h : fitFee W build giveUp attempts keystore fee = some (.ok built, keystore')) :
    ∃ attempt keystore₁ fee₁ tx, Q (attempt + 1) keystore₁ fee₁ ∧
      build attempt keystore₁ fee₁ = some (.ok (built, tx), keystore') ∧
      requiredFee (Transaction.serializedSize W) tx ≤ fee₁ := by
  induction attempts generalizing keystore fee with
  | zero => simp [fitFee] at h
  | succ attempts ih =>
      rw [fitFee] at h
      split at h
      · cases h
      · simp at h
      next built₁ tx keystore₁ hattempt =>
        dsimp only at h
        split at h
        next henough =>
          obtain ⟨hok, rfl⟩ := Prod.mk.inj (Option.some.inj h)
          obtain rfl := Except.ok.inj hok
          exact ⟨attempts, keystore, fee, tx, hQ, hattempt, henough⟩
        next hshort =>
          exact ih (hbuild _ _ _ _ _ _ hattempt (UInt64.not_le.mp hshort) hQ) h

/-! ## Plans

A plan to send within one wallet: one output for the amount, one for the change, one kernel. It is built
anew at each attempt, with the keystore that the last attempt has left behind, so a failed attempt uses up
its indices. -/

structure SendPlan (P : Crypto) where
  transaction : Transaction P
  dest : PlannedOutput P
  change : Option (PlannedOutput P)
  spentCommitments : List (Commitment P)

/-- The outputs of a plan, which its own wallet gets. -/
def SendPlan.own (plan : SendPlan P) : List (PlannedOutput P) :=
  plan.dest :: plan.change.toList

/-- What the caller does to its ledger when the plan has been broadcast. -/
def SendPlan.commit (plan : SendPlan P) (store : WalletStore P) : WalletStore P :=
  (store.markAllSpent plan.spentCommitments).addPending plan.own

/-- What one attempt to build a plan draws at random. -/
structure SendCoins (W : WalletCrypto P) where
  dest : OutputCoins W
  change : OutputCoins W
  nonce : P.Scalar

def buildSendTransaction (W : WalletCrypto P) (coins : SendCoins W) (keystore : Keystore)
    (store : WalletStore P) (amount fee : UInt64) :
    Option (Except PlanError (SendPlan P) × Keystore) :=
  let target := amount + fee
  match selectSpendable store target with
  | .error e => some (.error e, keystore)
  | .ok selected => do
      let blindings ← inputBlindings W keystore selected
      let noteKey := keystore.noteKey W
      let (destIndex, keystore) := keystore.allocateIndex
      let destBlinding := keystore.deriveBlinding W destIndex
      let dest := makeOutput W coins.dest noteKey destIndex amount destBlinding
      let (change, changeBlinding, keystore) :=
        makeChange W coins.change keystore (totalValue selected - target)
      let excessBlinding := blindings.sum - (destBlinding + changeBlinding)
      let kernel : TxKernel P :=
        { excess := Commitment.new 0 excessBlinding
          fee := fee
          signature := Signature.sign (toLeBytes 8 fee.toNat) excessBlinding coins.nonce }
      let plan : SendPlan P :=
        { transaction :=
            { inputs := plannedInputs selected
              outputs := dest :: (change.map ChangeInfo.output).toList
              kernels := [kernel] }
          dest := ⟨destIndex, dest.commitment, amount⟩
          change := change.map ChangeInfo.planned
          spentCommitments := selected.map PlannedOutput.commitment }
      return (.ok plan, keystore)

def planSend (W : WalletCrypto P) (coins : ℕ → SendCoins W) (keystore : Keystore)
    (store : WalletStore P) (amount fee : UInt64) :
    Option (Except PlanError (SendPlan P) × Keystore) :=
  fitFee W (fun attempt keystore fee =>
      (buildSendTransaction W (coins attempt) keystore store amount fee).map fun built =>
        (built.1.map fun plan => (plan, plan.transaction), built.2))
    (fun fee => .insufficientBalance (store.balance + store.pendingBalance) (amount + fee))
    maxFeeFitAttempts keystore fee

section Built

variable {coins : SendCoins W} {keystore keystore' : Keystore} {store : WalletStore P}
  {amount fee : UInt64} {plan : SendPlan P}

/-- What comes out of an attempt, in terms of the outputs that were selected. -/
theorem buildSendTransaction_ok
    (h : buildSendTransaction W coins keystore store amount fee = some (.ok plan, keystore')) :
    ∃ selected blindings made, selectSpendable store (amount + fee) = .ok selected ∧
      inputBlindings W keystore selected = some blindings ∧
      made = makeChange W coins.change keystore.allocateIndex.2
        (totalValue selected - (amount + fee)) ∧
      keystore' = made.2.2 ∧
      plan.transaction =
        ⟨plannedInputs selected,
          makeOutput W coins.dest (keystore.noteKey W) keystore.nextIndex amount
            (keystore.deriveBlinding W keystore.nextIndex) :: (made.1.map ChangeInfo.output).toList,
          [⟨Commitment.new 0 (blindings.sum - (keystore.deriveBlinding W keystore.nextIndex + made.2.1)),
            fee, Signature.sign (toLeBytes 8 fee.toNat)
              (blindings.sum - (keystore.deriveBlinding W keystore.nextIndex + made.2.1))
              coins.nonce⟩]⟩ ∧
      plan.dest = ⟨keystore.nextIndex,
        Commitment.new amount (keystore.deriveBlinding W keystore.nextIndex), amount⟩ ∧
      plan.change = made.1.map ChangeInfo.planned ∧
      plan.spentCommitments = selected.map PlannedOutput.commitment := by
  unfold buildSendTransaction at h
  dsimp only at h
  split at h
  · simp at h
  next selected hselected =>
    simp only [Option.bind_eq_bind, Option.bind_eq_some_iff, Option.pure_def, Option.some.injEq,
      Prod.mk.injEq, Except.ok.injEq] at h
    obtain ⟨blindings, hblindings, rfl, rfl⟩ := h
    exact ⟨selected, blindings, _, hselected, hblindings, rfl, rfl, rfl, rfl, rfl, rfl⟩

/-- A plan is one of the attempts to build it, at a fee that covers its size. -/
theorem planSend_ok {Q : ℕ → Keystore → UInt64 → Prop} {coins : ℕ → SendCoins W}
    (hbuild : ∀ attempt keystore fee plan keystore',
      buildSendTransaction W (coins attempt) keystore store amount fee = some (.ok plan, keystore') →
      fee < requiredFee (Transaction.serializedSize W) plan.transaction →
      Q (attempt + 1) keystore fee →
      Q attempt keystore' (requiredFee (Transaction.serializedSize W) plan.transaction))
    (hQ : Q maxFeeFitAttempts keystore fee)
    (h : planSend W coins keystore store amount fee = some (.ok plan, keystore')) :
    ∃ attempt keystore₁ fee₁, Q (attempt + 1) keystore₁ fee₁ ∧
      buildSendTransaction W (coins attempt) keystore₁ store amount fee₁ =
        some (.ok plan, keystore') ∧
      requiredFee (Transaction.serializedSize W) plan.transaction ≤ fee₁ := by
  have hattempt : ∀ attempt keystore fee plan tx keystore',
      (buildSendTransaction W (coins attempt) keystore store amount fee).map (fun built =>
        (built.1.map fun plan => (plan, plan.transaction), built.2)) =
        some (.ok (plan, tx), keystore') →
      buildSendTransaction W (coins attempt) keystore store amount fee = some (.ok plan, keystore') ∧
        tx = plan.transaction := by
    intro attempt keystore fee plan tx keystore' hmap
    obtain ⟨⟨built, keystore₂⟩, hbuilt, heq⟩ := Option.map_eq_some_iff.mp hmap
    cases built with
    | error e => simp [Except.map] at heq
    | ok plan' =>
        simp only [Except.map, Prod.mk.injEq, Except.ok.injEq] at heq
        obtain ⟨⟨rfl, rfl⟩, rfl⟩ := heq
        exact ⟨hbuilt, rfl⟩
  obtain ⟨attempt, keystore₁, fee₁, tx, hQ₁, hmap, hfee⟩ := fitFee_ok (Q := Q) (by
    intro attempt keystore fee plan tx keystore' hmap hshort hQ
    obtain ⟨hbuilt, rfl⟩ := hattempt _ _ _ _ _ _ hmap
    exact hbuild _ _ _ _ _ hbuilt hshort hQ) hQ h
  obtain ⟨hbuilt, rfl⟩ := hattempt _ _ _ _ _ _ hmap
  exact ⟨attempt, keystore₁, fee₁, hQ₁, hbuilt, hfee⟩

/-- A plan spends the inputs of its transaction. -/
theorem spent_planSend {coins : ℕ → SendCoins W}
    (h : planSend W coins keystore store amount fee = some (.ok plan, keystore')) :
    plan.transaction.spent = plan.spentCommitments := by
  obtain ⟨attempt, keystore₁, fee₁, -, hbuilt, -⟩ :=
    planSend_ok (Q := fun _ _ _ => True) (fun _ _ _ _ _ _ _ _ => trivial) trivial h
  obtain ⟨selected, blindings, made, -, -, -, -, htx, -, -, hspent⟩ := buildSendTransaction_ok hbuilt
  rw [htx, hspent]
  simp [Transaction.spent, plannedInputs, Function.comp_def]

end Built

/-! ## The devnet's wallet

Proofs and notes are what they stand for, with lengths of their own: 672 bytes for a proof, and sixteen for
the tag of a note. -/

namespace Devnet

/-- A range proof is the opening, and a note is not encrypted. -/
def wallet : WalletCrypto crypto where
  sha512 bytes := ⟨toLeBytes 64 (digest bytes), length_toLeBytes 64 _⟩
  fromBytesModOrderWide bytes := BitVec.ofNat 256 (bytesNat bytes.toList)
  ProofCoins := Unit
  prove _ value r := (value, r)
  proofBytes proof := toLeBytes 672 (proof.1.toNat + proof.2.toNat * 2 ^ 64)
  encrypt _ _ plaintext := plaintext ++ List.replicate 16 0
  treasuryBlinding := some (7 : BitVec 256)
  verify_prove _ value r := verifyRange_opening value r
  length_proofBytes := by
    intro _ _ _ _ _ _
    rw [length_toLeBytes, length_toLeBytes]
  length_encrypt := by
    intro _ _ plaintext
    rw [List.length_append, List.length_replicate]

def coins : OutputCoins wallet := ⟨(), List.Vector.replicate 12 0⟩

end Devnet

end Haze
