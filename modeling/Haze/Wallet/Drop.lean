import Haze.Api.Faucet
import Haze.Chain.Candidates
import Haze.Merkle

/-!
# Minting in a drop (`src/wasm.rs`)

Three parties work together in a drop: the creator, who launches the collection and approves each mint, the
minter, who shows that it is on the allowlist and pays the fee with confirmed outputs, and the chain, which
checks all of it again with code of its own. A wallet's part in this is built from its keystore and its
ledger alone, and signed with one identity key, which is derived from the seed like the blinding factors
and under another label.

What the two wallets make together passes exactly when the chain's state admits it. Hexadecimal and JSON
texts are the values they stand for.
-/

namespace Haze

variable {P : Crypto} {W : WalletCrypto P}

/-! ## The identity

The key that signs for names, assets and collections. It is derived from the seed alone, so a restored
wallet has it again, and it never moves coins. -/

/-- `Keystore::identity_key`. -/
def Keystore.identityKey (W : WalletCrypto P) (keystore : Keystore) : P.Scalar :=
  W.fromBytesModOrderWide (W.sha512 (asBytes "Haze Wallet Naming Identity" ++ keystore.seed.toList))

/-- `wallet_identity_pubkey_hex`. -/
def Keystore.identityPubkey (W : WalletCrypto P) (keystore : Keystore) : Commitment P :=
  ⟨keystore.identityKey W • P.BBlinding⟩

/-- `Signature::sign` with the identity key, as all requests do. -/
def Keystore.signIdentity (W : WalletCrypto P) (keystore : Keystore) (message : List UInt8)
    (nonce : P.Scalar) : Signature P :=
  Signature.sign message (keystore.identityKey W) nonce

@[simp] theorem Keystore.verify_signIdentity (keystore : Keystore) (message : List UInt8)
    (nonce : P.Scalar) :
    (keystore.signIdentity W message nonce).verify message (keystore.identityPubkey W) = true :=
  Signature.verify_sign _ _ _

/-! ## Paying a fee

A mint pays the network like a sponsored registration does: an operation brings its own small transaction,
without an output to anyone but the payer. Only confirmed outputs are used, and the whole of what is left
over comes back as change. -/

/-- A fee payment with the keystore it leaves behind and what is to be entered in the ledger. -/
structure FeePayment (P : Crypto) where
  transaction : Transaction P
  keystore : Keystore
  spentCommitments : List (Commitment P)
  change : Option (PlannedOutput P)

/-- What both builders of mints do alike to pay. -/
def buildFeePayment (W : WalletCrypto P) (coins : SponsorCoins W) (keystore : Keystore)
    (store : WalletStore P) (fee : UInt64) : Option (Except PlanError (FeePayment P)) :=
  match selectSpendableConfirmedOnly store fee with
  | .error e => some (.error e)
  | .ok selected => do
      let blindings ← inputBlindings W keystore selected
      let (change, changeBlinding, keystore) :=
        makeChange W coins.change keystore (totalValue selected - fee)
      let excess := blindings.sum - changeBlinding
      let kernel : TxKernel P :=
        { excess := Commitment.new 0 excess
          fee := fee
          signature := Signature.sign (toLeBytes 8 fee.toNat) excess coins.nonce }
      let transaction : Transaction P :=
        { inputs := plannedInputs selected
          outputs := (change.map ChangeInfo.output).toList
          kernels := [kernel] }
      return .ok ⟨transaction, keystore, selected.map PlannedOutput.commitment,
        change.map ChangeInfo.planned⟩

/-! ## The builders

Each builder makes the checks that its caller can know beforehand: the id, the floor of the fee, the
lengths. What depends on the chain is not asked here; whether the asset is new, the phase is open and the
creator is paid comes out when the operation is checked. -/

/-- What a builder refuses. -/
inductive RequestError where
  | invalidAssetId (e : AssetError)
  | feeTooLow (floor : UInt64)
  | metadataTooLong
  | royaltyTooHigh
  | plan (e : PlanError)
  | notInAllowlist
  deriving DecidableEq

/-- What a mint draws at random. -/
structure MintCoins (W : WalletCrypto P) where
  fee : SponsorCoins W
  nonce : P.Scalar

/-- `WasmMintAssetResult`. -/
structure MintAssetResult (P : Crypto) where
  op : MintAssetOp P
  updatedKeystore : Keystore
  spentCommitments : List (Commitment P)
  change : Option (PlannedOutput P)

/-- What a wallet says about itself in a mint, next to the payment. -/
structure MintRequest (P : Crypto) where
  assetId : String
  metadata : String
  drop : Option (String × UInt32)
  allowlistProof : Option (List Bytes32)
  allowlistLeafIndex : Option UInt32
  requiredKernelExcess : Option (Commitment P)

/-- The signed operation around a fee payment. -/
def MintRequest.sign (W : WalletCrypto P) (nonce : P.Scalar) (keystore : Keystore) (r : MintRequest P)
    (feePayment : Transaction P) : MintAssetOp P :=
  let message := MintAssetOp.signingMessage r.assetId (asBytes r.metadata) (r.drop.map Prod.fst)
    (r.drop.map Prod.snd) r.requiredKernelExcess
  { assetId := r.assetId
    ownerPubkey := keystore.identityPubkey W
    metadata := asBytes r.metadata
    feePayment := feePayment
    collectionId := r.drop.map Prod.fst
    phaseIndex := r.drop.map Prod.snd
    allowlistProof := r.allowlistProof
    allowlistLeafIndex := r.allowlistLeafIndex
    requiredKernelExcess := r.requiredKernelExcess
    signature := keystore.signIdentity W message nonce
    creatorSignature := none }

/-- What `build_mint_asset_request` and `build_collection_mint_asset_request` do alike; `none` is a panic. -/
def MintRequest.build (W : WalletCrypto P) (coins : MintCoins W) (keystore : Keystore)
    (store : WalletStore P) (fee : UInt64) (r : MintRequest P) :
    Option (Except RequestError (MintAssetResult P)) :=
  match validateAssetId r.assetId with
  | .error e => some (.error (.invalidAssetId e))
  | .ok _ =>
      if fee < assetMintFee then some (.error (.feeTooLow assetMintFee))
      else if (asBytes r.metadata).length > maxMetadataBytes then some (.error .metadataTooLong)
      else
        (buildFeePayment W coins.fee keystore store fee).map fun
          | .error e => .error (.plan e)
          | .ok payment =>
              .ok ⟨r.sign W coins.nonce keystore payment.transaction, payment.keystore,
                payment.spentCommitments, payment.change⟩

def buildMintAssetRequest (W : WalletCrypto P) (coins : MintCoins W) (keystore : Keystore)
    (store : WalletStore P) (assetId metadata : String) (fee : UInt64) :
    Option (Except RequestError (MintAssetResult P)) :=
  MintRequest.build W coins keystore store fee ⟨assetId, metadata, none, none, none, none⟩

def buildCollectionMintAssetRequest (W : WalletCrypto P) (coins : MintCoins W) (keystore : Keystore)
    (store : WalletStore P) (assetId metadata : String) (fee : UInt64) (collectionId : String)
    (phaseIndex : UInt32) (allowlistProof : Option (List Bytes32)) (allowlistLeafIndex : Option UInt32)
    (requiredKernelExcess : Option (Commitment P)) :
    Option (Except RequestError (MintAssetResult P)) :=
  MintRequest.build W coins keystore store fee
    ⟨assetId, metadata, some (collectionId, phaseIndex), allowlistProof, allowlistLeafIndex,
      requiredKernelExcess⟩

def buildLaunchCollectionRequest (W : WalletCrypto P) (nonce : P.Scalar) (keystore : Keystore)
    (collectionId name symbol metadata : String) (phases : List MintPhase) (royaltyBps : UInt16) :
    Except RequestError (LaunchCollectionOp P) :=
  if royaltyBps > maxRoyaltyBps then .error .royaltyTooHigh
  else
    let creatorPubkey := keystore.identityPubkey W
    let message := LaunchCollectionOp.signingMessage collectionId creatorPubkey name symbol
      (asBytes metadata) phases royaltyBps
    .ok ⟨collectionId, creatorPubkey, name, symbol, asBytes metadata, phases, royaltyBps,
      keystore.signIdentity W message nonce⟩

/-- `sign_collection_mint_approval`. -/
def signCollectionMintApproval (W : WalletCrypto P) (nonce : P.Scalar) (keystore : Keystore)
    (assetId collectionId : String) (phaseIndex : UInt32)
    (requiredKernelExcess ownerPubkey : Commitment P) : Signature P :=
  let message := MintAssetOp.collectionApprovalSigningMessage assetId collectionId phaseIndex
    requiredKernelExcess ownerPubkey
  keystore.signIdentity W message nonce

/-- `attach_creator_signature_to_mint`. -/
def attachCreatorSignatureToMint (op : MintAssetOp P) (creatorSignature : Signature P) : MintAssetOp P :=
  { op with creatorSignature := some creatorSignature }

structure MerkleProofResult where
  proof : List Bytes32
  leafIndex : UInt32
  root : Bytes32

/-- `compute_allowlist_merkle_proof`, in a browser, where a `usize` has 32 bits; `none` is a panic. -/
def computeAllowlistMerkleProof (pubkeys : List (Commitment P)) (target : Commitment P) :
    Option (Except RequestError MerkleProofResult) :=
  match pubkeys.findIdx? fun p => p == target with
  | none => some (.error .notInAllowlist)
  | some leafIndex =>
      let leaves := pubkeys.map allowlistLeaf
      (buildMerkleProof P leaves leafIndex).map fun proof =>
        .ok ⟨proof, UInt32.ofNat leafIndex, merkleRoot P leaves⟩

/-! ## What is paid

The payment is taken from the wallet's confirmed outputs, the largest first. It can be built whenever their
total reaches the fee, which is asked in exact numbers: the total of the ledger is assumed to be below the
limit of the type. -/

/-- The payment is valid and pays the fee: it spends the largest confirmed outputs, which are worth the fee
and the change. -/
structure FeePayment.Pays (store : WalletStore P) (fee : UInt64) (payment : FeePayment P) : Prop where
  valid : payment.transaction.validate = true
  kernelFee : payment.transaction.kernels.map TxKernel.fee = [fee]
  spends : ∃ taken, taken <+: store.spendable ∧
    payment.transaction.spent = taken.map OwnedOutput.commitment ∧
    payment.spentCommitments = taken.map OwnedOutput.commitment ∧
    payment.transaction.created = payment.change.toList.map PlannedOutput.commitment ∧
    (taken.map fun o => o.value.toNat).sum =
      fee.toNat + (payment.change.toList.map fun o => o.value.toNat).sum

section Fee

variable {store : WalletStore P} {fee : UInt64} {keystore : Keystore}

/-- Nothing wraps, so an amount is selected exactly if it is there. -/
theorem select_ok_iff (hfits : store.confirmedValues.sum < 2 ^ 64) :
    (∃ selected, selectSpendableConfirmedOnly store fee = .ok selected) ↔
      fee.toNat ≤ store.confirmedValues.sum := by
  have htake : ∀ k, (store.confirmedValues.take k).sum ≤ store.confirmedValues.sum :=
    fun k => (List.take_sublist k _).sum_le_sum fun _ _ => Nat.zero_le _
  have hfails : (∃ e, selectSpendableConfirmedOnly store fee = .error e) ↔
      store.confirmedValues.sum < fee.toNat := by
    rw [select_fails_iff]
    constructor
    · intro h
      have hall := h store.confirmedValues.length
      rwa [List.take_length, Nat.mod_eq_of_lt hfits] at hall
    · intro h k
      exact (Nat.mod_le _ _).trans_lt ((htake k).trans_lt h)
  rw [← Nat.not_lt, ← hfails]
  cases selectSpendableConfirmedOnly store fee with
  | error e => simp
  | ok selected => simp

theorem sum_planned (change : Option (ChangeInfo P)) :
    ((change.map ChangeInfo.planned).toList.map fun o => o.value.toNat).sum =
      ((change.map ChangeInfo.value).getD 0).toNat := by
  cases change with
  | none => rfl
  | some change => simp [ChangeInfo.planned]

/-- A payment is built exactly if the confirmed outputs suffice. -/
theorem buildFeePayment_cases (coins : SponsorCoins W) (hstore : WellFormed W keystore store)
    (hfits : store.confirmedValues.sum < 2 ^ 64) :
    (store.confirmedValues.sum < fee.toNat ∧
      ∃ e, buildFeePayment W coins keystore store fee = some (.error e)) ∨
    fee.toNat ≤ store.confirmedValues.sum ∧
      ∃ payment, buildFeePayment W coins keystore store fee = some (.ok payment) ∧
        payment.Pays store fee := by
  -- what is selected opens under the wallet's own keys, so the inputs' blinding factors are there
  cases hselect : selectSpendableConfirmedOnly store fee with
  | error e =>
      refine .inl ⟨?_, e, by rw [buildFeePayment, hselect]⟩
      rw [← Nat.not_le, ← select_ok_iff hfits, hselect]
      rintro ⟨selected, h⟩
      cases h
  | ok selected =>
      refine .inr ⟨(select_ok_iff hfits).mp ⟨selected, hselect⟩, ?_⟩
      obtain ⟨taken, htaken, hselected, -⟩ := selectFrom_ok hselect
      have hopen : ∀ o ∈ selected, ∃ r, blindingFor W keystore o.index = some r ∧
          o.commitment = Commitment.new o.value r := by
        rw [hselected]
        intro o ho
        obtain ⟨owned, howned, rfl⟩ := List.mem_map.mp ho
        exact hstore owned (WalletStore.mem_spendable.mp (htaken.subset howned)).1
      obtain ⟨blindings, hblindings⟩ := inputBlindings_of_forall fun o ho =>
        (hopen o ho).imp fun _ h => h.1
      -- the sum of a part of the ledger has not wrapped, since the sum of the whole has not
      have hfits' : (selected.map fun o => o.value.toNat).sum < 2 ^ 64 := by
        rw [sum_confirmedValues_take hselect]
        exact ((List.take_sublist _ _).sum_le_sum fun _ _ => Nat.zero_le _).trans_lt hfits
      have hbalance := selectFrom_balances hselect hfits'
      have hvalue := value_makeChange coins.change keystore (totalValue selected - fee)
      refine ⟨_, by rw [buildFeePayment, hselect]; dsimp only; rw [hblindings]; rfl, ?_, rfl, ?_⟩
      · apply validate_selected hblindings hopen
        · intro o ho
          obtain ⟨change, hmem, rfl⟩ := Option.map_eq_some_iff.mp (Option.mem_toList.mp ho)
          exact verify_makeChange _ _ _ change hmem
        · exact sumPoints_makeChange _ _ _
        · rw [Nat.add_comm]
          exact hbalance
      · refine ⟨taken, htaken, ?_, ?_, ?_, ?_⟩
        · rw [hselected]
          simp [Transaction.spent, plannedInputs, Function.comp_def, OwnedOutput.planned]
        · rw [hselected]
          simp [Function.comp_def, OwnedOutput.planned]
        · cases (makeChange W coins.change keystore (totalValue selected - fee)).1 with
          | none => rfl
          | some change => rfl
        · have hsum : (selected.map fun o => o.value.toNat).sum =
              (taken.map fun o => o.value.toNat).sum := by
            rw [hselected, List.map_map]
            rfl
          rw [← hsum, hbalance, sum_planned, hvalue]

end Fee

/-! ## What the chain makes of a mint -/

/-- What a builder checks of its arguments. -/
structure Mintable (assetId metadata : String) (fee : UInt64) : Prop where
  assetId : validateAssetId assetId = .ok ()
  fee : assetMintFee ≤ fee
  metadata : (asBytes metadata).length ≤ maxMetadataBytes

section Mint

variable {store : WalletStore P} {fee : UInt64} {keystore : Keystore} {r : MintRequest P}

/-- A mint is built exactly if it is in order and the confirmed outputs suffice. -/
theorem MintRequest.build_cases (r : MintRequest P) (coins : MintCoins W)
    (hstore : WellFormed W keystore store) (hfits : store.confirmedValues.sum < 2 ^ 64) (fee : UInt64) :
    (¬(Mintable r.assetId r.metadata fee ∧ fee.toNat ≤ store.confirmedValues.sum) ∧
      ∃ e, r.build W coins keystore store fee = some (.error e)) ∨
    (Mintable r.assetId r.metadata fee ∧ fee.toNat ≤ store.confirmedValues.sum) ∧
      ∃ payment : FeePayment P, payment.Pays store fee ∧ r.build W coins keystore store fee =
        some (.ok ⟨r.sign W coins.nonce keystore payment.transaction, payment.keystore,
          payment.spentCommitments, payment.change⟩) := by
  unfold MintRequest.build
  split
  next e he =>
    refine .inl ⟨?_, _, rfl⟩
    rintro ⟨hr, -⟩
    cases he.symm.trans hr.assetId
  next u hid =>
    split
    next hlow => exact .inl ⟨fun h => UInt64.not_lt.mpr h.1.fee hlow, _, rfl⟩
    next hfee =>
      split
      next hlong => exact .inl ⟨fun h => Nat.not_lt.mpr h.1.metadata hlong, _, rfl⟩
      next hmetadata =>
        have hr : Mintable r.assetId r.metadata fee := ⟨hid, UInt64.not_lt.mp hfee, Nat.not_lt.mp hmetadata⟩
        rcases buildFeePayment_cases coins.fee hstore hfits with
          ⟨hpoor, e, he⟩ | ⟨hfunds, payment, hp, hpays⟩
        · rw [he]
          exact .inl ⟨fun h => Nat.not_le.mpr hpoor h.2, _, rfl⟩
        · rw [hp]
          exact .inr ⟨⟨hr, hfunds⟩, payment, hpays, rfl⟩

theorem MintRequest.build_ok_iff (r : MintRequest P) (coins : MintCoins W)
    (hstore : WellFormed W keystore store) (hfits : store.confirmedValues.sum < 2 ^ 64) (fee : UInt64) :
    (∃ mint, r.build W coins keystore store fee = some (.ok mint)) ↔
      Mintable r.assetId r.metadata fee ∧ fee.toNat ≤ store.confirmedValues.sum := by
  rcases r.build_cases coins hstore hfits fee with ⟨hnot, e, herror⟩ | ⟨hcan, payment, -, hbuilt⟩
  · refine iff_of_false ?_ hnot
    rintro ⟨mint, hmint⟩
    cases herror.symm.trans hmint
  · exact iff_of_true ⟨_, hbuilt⟩ hcan

/-- It passes the checks that every mint has to pass. -/
theorem MintRequest.validateStandalone_sign {payment : FeePayment P} (nonce : P.Scalar)
    (hr : Mintable r.assetId r.metadata fee) (hpays : payment.Pays store fee)
    (hshort : ∀ proof ∈ r.allowlistProof, proof.length ≤ maxAllowlistProofLength) :
    (r.sign W nonce keystore payment.transaction).validateStandalone = .ok () := by
  obtain ⟨k, hkernels, hfee⟩ := List.map_eq_singleton_iff.mp hpays.kernelFee
  have hpaid : checkFeePayment assetMintFee AssetError.invalidFeePayment payment.transaction = .ok () := by
    have hcovers : ¬k.fee < assetMintFee := by
      rw [hfee]
      exact UInt64.not_lt.mpr hr.fee
    simp only [checkFeePayment, hkernels, if_neg hcovers, hpays.valid, if_true]
  have hproof : (r.allowlistProof.any fun proof =>
      decide (proof.length > maxAllowlistProofLength)) = false := by
    cases hsome : r.allowlistProof with
    | none => rfl
    | some proof => simpa using hshort proof hsome
  have hmetadata : ¬(asBytes r.metadata).length > maxMetadataBytes := Nat.not_lt.mpr hr.metadata
  simp only [MintRequest.sign, MintAssetOp.validateStandalone, hr.assetId, if_neg hmetadata,
    Option.isSome_map, bne_self_eq_false, Bool.false_eq_true, hproof, if_false,
    Keystore.verify_signIdentity, Bool.not_true, hpaid]
  rfl

/-- What it spends are different outputs of the ledger. -/
theorem FeePayment.Pays.spent {payment : FeePayment P} (hpays : payment.Pays store fee)
    (hdistinct : store.commitments.Nodup) :
    payment.transaction.spent = payment.spentCommitments ∧ payment.spentCommitments.Nodup ∧
      ∀ c ∈ payment.spentCommitments, c ∈ store.commitments := by
  obtain ⟨taken, htaken, hspent, hcommitments, -, -⟩ := hpays.spends
  have hmem : ∀ o ∈ taken, o ∈ store.outputs := fun o ho =>
    (WalletStore.mem_spendable.mp (htaken.subset ho)).1
  have hspendable : store.spendable.Nodup :=
    (List.perm_insertionSort _ _).nodup_iff.mpr (hdistinct.of_map _ |>.filter _)
  refine ⟨hspent.trans hcommitments.symm, ?_, ?_⟩
  · rw [hcommitments]
    exact WalletStore.nodup_map_commitment hdistinct (hspendable.sublist htaken.sublist) hmem
  · rw [hcommitments]
    intro c hc
    obtain ⟨o, ho, rfl⟩ := List.mem_map.mp hc
    exact List.mem_map_of_mem (hmem o ho)

/-- What is built is a signed operation around a payment with outputs of the ledger. -/
theorem MintRequest.of_build {coins : MintCoins W} {mint : MintAssetResult P}
    (hstore : WellFormed W keystore store) (hdistinct : store.commitments.Nodup)
    (hfits : store.confirmedValues.sum < 2 ^ 64)
    (h : r.build W coins keystore store fee = some (.ok mint)) :
    ∃ payment : FeePayment P, payment.Pays store fee ∧ Mintable r.assetId r.metadata fee ∧
      mint.op = r.sign W coins.nonce keystore payment.transaction ∧
      mint.op.feePayment.spent = mint.spentCommitments ∧ mint.spentCommitments.Nodup ∧
      ∀ c ∈ mint.spentCommitments, c ∈ store.commitments := by
  rcases r.build_cases coins hstore hfits fee with ⟨-, e, herror⟩ | ⟨hcan, payment, hpays, hbuilt⟩
  · cases herror.symm.trans h
  · cases hbuilt.symm.trans h
    exact ⟨payment, hpays, hcan.1, rfl, hpays.spent hdistinct⟩

end Mint

section Chain

open ChainState

variable {s : ChainState P} {b : Block P} {collections : KeyedMap String (CollectionRecord P)}
  {acc : MintCheck P} {op : MintAssetOp P}

/-- Of a mint that is in order on its own the chain asks four things. -/
theorem checkMintOp_isSome_iff (hvalid : op.validateStandalone = .ok ())
    (hnodup : op.feePayment.spent.Nodup) :
    (s.checkMintOp b collections acc op).isSome = true ↔
      (op.assetId ∉ s.assetRegistry ∧ op.assetId ∉ acc.assets) ∧
        (∀ c ∈ op.feePayment.spent, c ∈ s.utxos ∧ c ∉ acc.spent) ∧
        (checkMintCount b collections acc op).isSome = true ∧
        s.conditionMet b op.requiredKernelExcess = true := by
  have hok : op.validateStandalone.isOk = true := by
    rw [hvalid]
    rfl
  have hclaim : (∃ spent, Coins.claimAll s.utxos acc.spent op.feePayment.spent = some spent) ↔
      ∀ c ∈ op.feePayment.spent, c ∈ s.utxos ∧ c ∉ acc.spent := by
    constructor
    · rintro ⟨spent, hspent⟩ c hc
      have hclaimed := Coins.claimed_of_claimAll hspent
      exact ⟨hclaimed.exist c hc, hclaimed.untaken c hc⟩
    · intro h
      exact ⟨_, Coins.claimAll_eq_some hnodup (fun c hc => (h c hc).1) fun c hc => (h c hc).2⟩
  simp only [Option.isSome_iff_exists, checkMintOp, Option.bind_eq_bind, Option.bind_eq_some_iff,
    Checked.ensure_eq_some, exists_const, hok, true_and, ← hclaim, Bool.and_eq_true, decide_eq_true_eq]
  constructor
  · rintro ⟨acc', hfree, spent, hspent, counted, hcounted, hmet, -⟩
    exact ⟨hfree, ⟨spent, hspent⟩, ⟨counted, hcounted⟩, hmet⟩
  · rintro ⟨hfree, ⟨spent, hspent⟩, ⟨counted, hcounted⟩, hmet⟩
    exact ⟨_, hfree, spent, hspent, counted, hcounted, hmet, rfl⟩

/-- What a phase asks of a mint that shows its place on the allowlist and the creator's approval: the time
and the limit. -/
theorem checkMintCount_isSome_iff {collectionId : String} {phaseIndex : UInt32}
    {collection : CollectionRecord P} {phase : MintPhase} {excess : Commitment P} {approval : Signature P}
    (hcollectionId : op.collectionId = some collectionId) (hphaseIndex : op.phaseIndex = some phaseIndex)
    (hcollection : collections.lookup collectionId = some collection)
    (hphase : collection.phases[phaseIndex.toNat]? = some phase) (hlisted : allowlisted phase op = true)
    (hexcess : op.requiredKernelExcess = some excess) (hsignature : op.creatorSignature = some approval)
    (happroved : approval.verify (MintAssetOp.collectionApprovalSigningMessage op.assetId collectionId
      phaseIndex excess op.ownerPubkey) collection.creatorPubkey = true) :
    (checkMintCount b collections acc op).isSome = true ↔
      (phase.startTime ≤ b.header.timestamp ∧ b.header.timestamp < phase.endTime) ∧
        (acc.counts.lookup (collectionId, phaseIndex, P.compress op.ownerPubkey.asPoint)).getD 0 <
          phase.perWalletLimit := by
  simp only [Option.isSome_iff_exists, checkMintCount, hcollectionId, hphaseIndex, checkCollectionMint,
    hcollection, hphase, hlisted, hexcess, hsignature, happroved, Option.bind_eq_bind, Option.bind_some,
    Option.bind_eq_some_iff, Checked.ensure_eq_some, exists_const, true_and, Bool.and_eq_true,
    decide_eq_true_eq]
  constructor
  · rintro ⟨counted, ⟨hopen, hunder⟩, -⟩
    exact ⟨hopen, hunder⟩
  · rintro ⟨hopen, hunder⟩
    exact ⟨_, ⟨hopen, hunder⟩, rfl⟩

end Chain

/-! ## The proof of the allowlist

The builder finds the minter's place in the list and proves it, the chain climbs from the leaf to the root
in the phase. Both hash in the same way, so the proof is that of the library. -/

/-- Who is on the list gets a proof, which the chain accepts. -/
theorem computeAllowlistMerkleProof_of_mem {pubkeys : List (Commitment P)} {target : Commitment P}
    (hlen : pubkeys.length < 2 ^ 32) (hlisted : target ∈ pubkeys) :
    ∃ result, computeAllowlistMerkleProof pubkeys target = some (.ok result) ∧
      result.root = merkleRoot P (pubkeys.map allowlistLeaf) ∧
      result.proof.length ≤ maxAllowlistProofLength ∧
      verifyMerkleProof P (allowlistLeaf target) result.proof result.leafIndex.toNat result.root = true := by
  unfold computeAllowlistMerkleProof
  cases hfind : pubkeys.findIdx? fun p => p == target with
  | none =>
      rw [List.findIdx?_eq_none_iff] at hfind
      cases (beq_self_eq_true target).symm.trans (hfind target hlisted)
  | some leafIndex =>
      obtain ⟨hlt, htarget, -⟩ := List.findIdx?_eq_some_iff_getElem.mp hfind
      have hleaf : (pubkeys.map (allowlistLeaf (P := P)))[leafIndex]? = some (allowlistLeaf target) := by
        rw [List.getElem?_map, List.getElem?_eq_getElem hlt, beq_iff_eq.mp htarget]
        rfl
      -- the chain gives the index as a `u32`, which the length of the list allows
      obtain ⟨proof, hproof, hclimb⟩ := Merkle.climb_proof (hashPair P) (emptyRoot P) hleaf
      have hindex : (UInt32.ofNat leafIndex).toNat = leafIndex :=
        UInt32.toNat_ofNat_of_lt' (hlt.trans hlen)
      refine ⟨_, by dsimp only; rw [buildMerkleProof, hproof]; rfl, rfl, ?_, ?_⟩
      · apply Merkle.length_proof_le hproof
        rw [List.length_map]
        exact hlen.le.trans (Nat.pow_le_pow_right (by decide) (by decide))
      · dsimp only
        rw [verifyMerkleProof_eq, hindex]
        exact decide_eq_true hclimb

/-! ## A mint and a drop

Everything that is signed verifies and everything that is proved is proved, so what is left of the chain's
checks is about its state: what has been minted, what is unspent, and what the phase and the block say. -/

/-- The asset is new to the chain, and the coins of its fee are there. -/
structure ChainState.AdmitsAsset (s : ChainState P) (acc : MintCheck P) (op : MintAssetOp P) : Prop where
  new : op.assetId ∉ s.assetRegistry ∧ op.assetId ∉ acc.assets
  unspent : ∀ c ∈ op.feePayment.spent, c ∈ s.utxos ∧ c ∉ acc.spent

/-- The phase is open, the minter under its limit, and the creator paid, on the chain or in the block. -/
structure ChainState.AdmitsDrop (s : ChainState P) (b : Block P) (acc : MintCheck P) (phase : MintPhase)
    (key : MintKey) (excess : Commitment P) : Prop where
  opened : phase.startTime ≤ b.header.timestamp ∧ b.header.timestamp < phase.endTime
  under : (acc.counts.lookup key).getD 0 < phase.perWalletLimit
  paid : s.satisfied b excess = true

section Wallets

open ChainState

/-- The record of a launch has the creator's key and the phases it was launched with. -/
theorem launched_record {creator : Keystore} {nonce : P.Scalar} {collectionId name symbol about : String}
    {phases : List MintPhase} {royaltyBps : UInt16} {launch : LaunchCollectionOp P}
    (hlaunch : buildLaunchCollectionRequest W nonce creator collectionId name symbol about phases
      royaltyBps = .ok launch) (height : UInt64) :
    (launch.record height).creatorPubkey = creator.identityPubkey W ∧
      (launch.record height).phases = phases := by
  unfold buildLaunchCollectionRequest at hlaunch
  split at hlaunch
  · cases hlaunch
  · cases hlaunch
    exact ⟨rfl, rfl⟩

variable {keystore creator : Keystore} {store : WalletStore P}

/-- **A mint outside collections** is built exactly if it is in order and the confirmed outputs suffice,
and then accepted exactly if the asset is new and the coins are unspent. -/
theorem plain_mint (coins : MintCoins W) (hstore : WellFormed W keystore store)
    (hdistinct : store.commitments.Nodup) (hfits : store.confirmedValues.sum < 2 ^ 64)
    (assetId metadata : String) (fee : UInt64) :
    ((∃ mint, buildMintAssetRequest W coins keystore store assetId metadata fee = some (.ok mint)) ↔
      Mintable assetId metadata fee ∧ fee.toNat ≤ store.confirmedValues.sum) ∧
    ∀ mint, buildMintAssetRequest W coins keystore store assetId metadata fee = some (.ok mint) →
      mint.op.feePayment.spent = mint.spentCommitments ∧
        (∀ c ∈ mint.spentCommitments, c ∈ store.commitments) ∧
        ∀ (s : ChainState P) b collections acc,
          (s.checkMintOp b collections acc mint.op).isSome = true ↔ s.AdmitsAsset acc mint.op := by
  refine ⟨MintRequest.build_ok_iff _ coins hstore hfits fee, fun mint hmint => ?_⟩
  obtain ⟨payment, hpays, hmintable, hop, hspent, hnodup, howned⟩ :=
    MintRequest.of_build hstore hdistinct hfits hmint
  refine ⟨hspent, howned, fun s b collections acc => ?_⟩
  have hvalid : mint.op.validateStandalone = .ok () := by
    rw [hop]
    exact MintRequest.validateStandalone_sign coins.nonce hmintable hpays nofun
  rw [← hspent] at hnodup
  rw [checkMintOp_isSome_iff hvalid hnodup]
  constructor
  · rintro ⟨hnew, hunspent, -, -⟩
    exact ⟨hnew, hunspent⟩
  · rintro ⟨hnew, hunspent⟩
    refine ⟨hnew, hunspent, ?_, ?_⟩
    · rw [hop]
      rfl
    · rw [hop]
      rfl

/-- **A drop.** Whoever is on the allowlist of a phase gets a proof from its own wallet. With it a mint is
built exactly if it is in order and the confirmed outputs, of a supply that fits 64 bits, suffice. With the
creator's approval the chain accepts it exactly if its state admits the asset and the drop. -/
theorem drop_mint (coins : MintCoins W) (hstore : WellFormed W keystore store)
    (hdistinct : store.commitments.Nodup) (hfits : store.confirmedValues.sum < 2 ^ 64)
    {pubkeys : List (Commitment P)} (hlen : pubkeys.length < 2 ^ 32)
    (hlisted : keystore.identityPubkey W ∈ pubkeys) {nonce : P.Scalar}
    {collectionId name symbol about : String} {phases : List MintPhase} {royaltyBps : UInt16}
    {launch : LaunchCollectionOp P}
    (hlaunch : buildLaunchCollectionRequest W nonce creator collectionId name symbol about phases
      royaltyBps = .ok launch) {phaseIndex : UInt32} {phase : MintPhase}
    (hphase : phases[phaseIndex.toNat]? = some phase)
    (hroot : phase.allowlistMerkleRoot = some (merkleRoot P (pubkeys.map allowlistLeaf)))
    (assetId metadata : String) (fee : UInt64) (excess : Commitment P) :
    ∃ result, computeAllowlistMerkleProof pubkeys (keystore.identityPubkey W) = some (.ok result) ∧
      let built := buildCollectionMintAssetRequest W coins keystore store assetId metadata fee collectionId
        phaseIndex (some result.proof) (some result.leafIndex) (some excess)
      ((∃ mint, built = some (.ok mint)) ↔
        Mintable assetId metadata fee ∧ fee.toNat ≤ store.confirmedValues.sum) ∧
      ∀ mint, built = some (.ok mint) →
        mint.op.feePayment.spent = mint.spentCommitments ∧
          (∀ c ∈ mint.spentCommitments, c ∈ store.commitments) ∧
          ∀ (nonce' : P.Scalar) (s : ChainState P) b collections acc height,
            collections.lookup collectionId = some (launch.record height) →
            ((s.checkMintOp b collections acc (attachCreatorSignatureToMint mint.op
                (signCollectionMintApproval W nonce' creator assetId collectionId phaseIndex excess
                  (keystore.identityPubkey W)))).isSome = true ↔
              s.AdmitsAsset acc mint.op ∧ s.AdmitsDrop b acc phase
                (collectionId, phaseIndex, P.compress (keystore.identityPubkey W).asPoint) excess) := by
  obtain ⟨result, hresult, hresultRoot, hshort, hverify⟩ := computeAllowlistMerkleProof_of_mem hlen hlisted
  refine ⟨result, hresult, ?_⟩
  refine ⟨MintRequest.build_ok_iff _ coins hstore hfits fee, fun mint hmint => ?_⟩
  obtain ⟨payment, hpays, hmintable, hop, hspent, hnodup, howned⟩ :=
    MintRequest.of_build hstore hdistinct hfits hmint
  refine ⟨hspent, howned, fun nonce' s b collections acc height hcollection => ?_⟩
  obtain ⟨hcreator, hphases⟩ := launched_record hlaunch height
  rw [← hphases] at hphase
  have happroved : (signCollectionMintApproval W nonce' creator assetId collectionId phaseIndex excess
      (keystore.identityPubkey W)).verify (MintAssetOp.collectionApprovalSigningMessage assetId collectionId
        phaseIndex excess (keystore.identityPubkey W)) (launch.record height).creatorPubkey = true := by
    rw [hcreator]
    exact creator.verify_signIdentity _ _
  generalize signCollectionMintApproval W nonce' creator assetId collectionId phaseIndex excess
    (keystore.identityPubkey W) = approval at happroved ⊢
  -- the creator's signature is not among what a mint is checked for on its own
  have hvalid : (attachCreatorSignatureToMint mint.op approval).validateStandalone = .ok () := by
    rw [hop]
    refine MintRequest.validateStandalone_sign coins.nonce hmintable hpays ?_
    rintro proof ⟨⟩
    exact hshort
  have hcount : (checkMintCount b collections acc
      (attachCreatorSignatureToMint mint.op approval)).isSome = true ↔
      (phase.startTime ≤ b.header.timestamp ∧ b.header.timestamp < phase.endTime) ∧
        (acc.counts.lookup (collectionId, phaseIndex,
          P.compress (keystore.identityPubkey W).asPoint)).getD 0 < phase.perWalletLimit := by
    rw [hop]
    apply checkMintCount_isSome_iff rfl rfl hcollection hphase
    · simp only [allowlisted, hroot, attachCreatorSignatureToMint, MintRequest.sign, ← hresultRoot]
      exact hverify
    · rfl
    · rfl
    · exact happroved
  have hpaid : s.conditionMet b (attachCreatorSignatureToMint mint.op approval).requiredKernelExcess =
      s.satisfied b excess := by
    rw [hop]
    rfl
  rw [← hspent] at hnodup
  rw [checkMintOp_isSome_iff hvalid hnodup, hcount, hpaid]
  constructor
  · rintro ⟨hnew, hunspent, ⟨hopened, hunder⟩, hmet⟩
    exact ⟨⟨hnew, hunspent⟩, hopened, hunder, hmet⟩
  · rintro ⟨⟨hnew, hunspent⟩, hopened, hunder, hmet⟩
    exact ⟨hnew, hunspent, ⟨hopened, hunder⟩, hmet⟩

end Wallets

namespace Devnet

/-! ## A drop of one ape

Two wallets on a list of two. The creator launches and approves, the faucet's wallet mints, and the block
that takes the mint also pays the creator. -/

def dropCreator : Keystore := ⟨natBytes 4, 0⟩

def dropCoins : MintCoins wallet := ⟨sponsorCoins, (6 : BitVec 256)⟩

/-- The faucet is on the list, next to the creator. -/
def dropList : List (Commitment crypto) :=
  [dropCreator.identityPubkey wallet, faucet.identityPubkey wallet]

def dropPhase : MintPhase :=
  ⟨"listed", 0, 1000, 5, 1, some (merkleRoot crypto (dropList.map allowlistLeaf))⟩

/-- What pays the creator is in the block. -/
def dropBlock : Block crypto :=
  mine (linear [genesis]) (payment 1_000_000 42 77 5)

def dropPaid : Commitment crypto := (kernel (42 - 77) 5).excess

theorem ape_minted :
    ∃ launch result mint,
      buildLaunchCollectionRequest wallet (8 : BitVec 256) dropCreator "apes" "Apes" "APE" "" [dropPhase]
        250 = .ok launch ∧
      computeAllowlistMerkleProof dropList (faucet.identityPubkey wallet) = some (.ok result) ∧
      buildCollectionMintAssetRequest wallet dropCoins faucet faucetStore "ape-1" "" assetMintFee "apes" 0
        (some result.proof) (some result.leafIndex) (some dropPaid) = some (.ok mint) ∧
      ((linear [genesis]).checkMintOp dropBlock (Finmap.singleton "apes" (launch.record 0))
        ⟨∅, ∅, ∅, ∅, []⟩ (attachCreatorSignatureToMint mint.op
          (signCollectionMintApproval wallet (9 : BitVec 256) dropCreator "ape-1" "apes" 0 dropPaid
            (faucet.identityPubkey wallet)))).isSome = true := by
  have hstore : WellFormed wallet faucet faucetStore := by
    apply wellFormed_of_opens
    decide +kernel
  have hlaunch : ∃ launch, buildLaunchCollectionRequest wallet (8 : BitVec 256) dropCreator "apes" "Apes"
      "APE" "" [dropPhase] 250 = .ok launch := by
    unfold buildLaunchCollectionRequest
    rw [if_neg (by decide)]
    exact ⟨_, rfl⟩
  obtain ⟨launch, hlaunch⟩ := hlaunch
  have hlisted : faucet.identityPubkey wallet ∈ dropList := List.mem_cons_of_mem _ List.mem_cons_self
  have hlen : dropList.length < 2 ^ 32 := by decide
  have hphase : [dropPhase][(0 : UInt32).toNat]? = some dropPhase := rfl
  obtain ⟨result, hresult, hbuilt, hminted⟩ := drop_mint dropCoins hstore (by decide +kernel)
    (by decide +kernel) hlen hlisted hlaunch hphase rfl "ape-1" "" assetMintFee dropPaid
  obtain ⟨mint, hmint⟩ := hbuilt.mpr ⟨⟨by decide +kernel, by decide, by decide⟩, by decide +kernel⟩
  refine ⟨launch, result, mint, hlaunch, hresult, hmint, ?_⟩
  obtain ⟨hspent, howned, haccepted⟩ := hminted mint hmint
  apply (haccepted (9 : BitVec 256) _ _ _ _ 0 Finmap.lookup_singleton_eq).mpr
  have hnone : (linear [genesis]).assetRegistry = ∅ := by decide +kernel
  refine ⟨⟨⟨?_, Finset.notMem_empty _⟩, ?_⟩, ?_, ?_, ?_⟩
  · rw [hnone]
    exact Finmap.notMem_empty
  · rw [hspent]
    intro c hc
    obtain rfl : c = treasury := List.mem_singleton.mp (howned c hc)
    exact ⟨by decide +kernel, Finset.notMem_empty _⟩
  · decide +kernel
  · decide +kernel
  · decide +kernel

end Devnet

end Haze
