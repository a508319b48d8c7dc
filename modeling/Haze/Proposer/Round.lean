import Haze.Mempool

/-!
# One round of the proposer (`core/src/proposer.rs`)

The body of the loop in `start_proposing`: find the validator we sign for, drain the queues of the
mempool, drop the operations that the chain would refuse, add the coinbase, sign, and apply the block
to our own chain. The source takes the chain's lock anew for each snapshot it clones; here the chain
does not change during the round, so all of them are read from one state.

Each filter is a fold whose accumulator holds the local variables that the source's loop mutates.
-/

namespace Haze

variable {P : Crypto}

/-! ## Whose turn it is (`ChainState::proposer_priority_order`)

Validators are drawn without replacement, with a chance in proportion to their stakes. The seed is a hash of
the height and of the block before, so all nodes draw the same order. -/

namespace ChainState

/-- The first validator whose interval of cumulative stake holds the target. -/
def drawIndex : List (Validator P) → UInt64 → Option ℕ
  | [], _ => none
  | v :: pool, target =>
      if target < v.value then some 0 else (drawIndex pool (target - v.value)).map (· + 1)

/-- The first eight bytes of the round's hash; the round enters it from the second round on. -/
def drawSeed (P : Crypto) (height : UInt64) (prevHash : Bytes32) (round : ℕ) : UInt64 :=
  let hash := P.sha256 (toLeBytes 8 height.toNat ++ prevHash.toList
    ++ if round > 0 then toLeBytes 8 round else [])
  UInt64.ofNat ((hash.toList.take 8).foldr (fun b acc => b.toNat + 256 * acc) 0)

/-- One draw for each validator, without replacement. -/
def drawOrder (height : UInt64) (prevHash : Bytes32) :
    ℕ → ℕ → List (Validator P) → List (Commitment P)
  | 0, _, _ => []
  | n + 1, round, pool =>
      let totalStake := (pool.map Validator.value).sum
      let selectedIndex :=
        if totalStake = 0 then 0
        else (drawIndex pool (drawSeed P height prevHash round % totalStake)).getD 0
      match pool[selectedIndex]? with
      | some v => v.commitment :: drawOrder height prevHash n (round + 1) (pool.eraseIdx selectedIndex)
      | none => []

def proposerPriorityOrder (s : ChainState P) (height : UInt64) (prevHash : Bytes32) :
    List (Commitment P) :=
  if s.activeValidators.isEmpty then [genesisDefault P]
  else drawOrder height prevHash s.activeValidators.length 0 s.activeValidators

end ChainState

namespace Proposer

open Checked

/-- `FALLBACK_ROUND_TIMEOUT`, in milliseconds. -/
def fallbackRoundTimeout : ℕ := 4000

/-- What a round takes from the node's key, its clock and its random numbers. Bulletproofs,
`note::coinbase_blinding` and `note::seal` under the coinbase key are functions of it. -/
structure Env (P : Crypto) where
  /-- The staking secret. -/
  privateKey : P.Scalar
  /-- Seconds since the epoch. -/
  now : UInt64
  /-- How long the pending height has not moved, in milliseconds. -/
  stalledFor : ℕ
  coinbaseBlinding : UInt64 → P.Scalar
  /-- `RangeProof::prove`. -/
  prove : UInt64 → P.Scalar → P.RangeProof
  coinbaseNote : UInt32 → UInt64 → List UInt8
  stakeNonce : P.Scalar
  coinbaseNonce : P.Scalar
  headerNonce : P.Scalar

variable (e : Env P) (s : ChainState P)

def nextHeight : UInt64 := s.currentHeight + 1

/-- The validator whose stake our key opens, or the genesis proposer while there is none. -/
def myValidator : Option (Validator P) :=
  let rPoint := e.privateKey • P.BBlinding
  match s.activeValidators.find? fun v =>
      v.commitment.asPoint - (v.value.toNat : P.Scalar) • P.B = rPoint with
  | some v => some v
  | none =>
      if s.activeValidators.isEmpty && e.privateKey = P.genesisValidatorBlinding then
        let commitment := Commitment.new 1_000_000 e.privateKey
        let msg := stakeRegistrationMessage commitment 1_000_000
        some ⟨commitment, 1_000_000, Signature.sign msg e.privateKey e.stakeNonce⟩
      else
        none

/-- Rank 0 proposes at once, a later rank once the height has been stuck long enough. -/
def eligible (validator : Validator P) : Bool :=
  match (s.proposerPriorityOrder (nextHeight s) s.lastBlockHash).findIdx?
      fun commitment => commitment == validator.commitment with
  | some 0 => true
  | some rank => fallbackRoundTimeout * rank ≤ e.stalledFor
  | none => false

/-! ## Name operations

Fee inputs claimed by one operation are not there for the next; `spent_this_block` starts with the inputs of
the body and goes from the registrations to the mints. -/

-- every fee input exists and is not spent by anything selected before
def inputsOk (spentThisBlock : Finset (Commitment P)) (feePayment : Transaction P) : Bool :=
  feePayment.inputs.all fun i => i.commitment ∈ s.utxos && i.commitment ∉ spentThisBlock

/-- `spent_this_block`, `name_registry_snapshot` and `name_ops`. -/
structure NameSelection (P : Crypto) where
  spentThisBlock : Finset (Commitment P)
  registry : KeyedMap String (NameRecord P)
  nameOps : List (RegisterNameOp P)

def keepsNameOp (acc : NameSelection P) (op : RegisterNameOp P) : Bool :=
  inputsOk s acc.spentThisBlock op.feePayment && op.name ∉ acc.registry

def selectNameOp (acc : NameSelection P) (op : RegisterNameOp P) : NameSelection P :=
  if !keepsNameOp s acc op then acc
  else
    { spentThisBlock := Coins.create acc.spentThisBlock op.feePayment.spent
      registry := acc.registry.insert op.name
        ⟨op.name, op.ownerPubkey, op.resolvesTo, nextHeight s⟩
      nameOps := acc.nameOps ++ [op] }

def selectNameOps (tx : Transaction P) (candidates : List (RegisterNameOp P)) : NameSelection P :=
  candidates.foldl (selectNameOp s) ⟨tx.spent.toFinset, s.nameRegistry, []⟩

/-- `names_touched`, `name_registry_snapshot` and `transfer_ops`. -/
structure TransferSelection (P : Crypto) where
  namesTouched : Finset String
  registry : KeyedMap String (NameRecord P)
  transferOps : List (TransferNameOp P)

/-- The record that a kept transfer replaces: it existed before this block, nothing selected touches
it, and its owner signed. -/
def keepsTransferOp (acc : TransferSelection P) (op : TransferNameOp P) : Option (NameRecord P) := do
  ensure (op.name ∉ acc.namesTouched)
  let current ← s.nameRegistry.lookup op.name
  let msg := TransferNameOp.signingMessage op.name op.newOwnerPubkey op.newResolvesTo
  ensure (op.signature.verify msg current.ownerPubkey)
  return current

def selectTransferOp (acc : TransferSelection P) (op : TransferNameOp P) : TransferSelection P :=
  match keepsTransferOp s acc op with
  | none => acc
  | some current =>
      { namesTouched := insert op.name acc.namesTouched
        registry := acc.registry.insert op.name
          ⟨op.name, op.newOwnerPubkey, op.newResolvesTo, current.registeredAtBlock⟩
        transferOps := acc.transferOps ++ [op] }

def selectTransferOps (named : NameSelection P) (candidates : List (TransferNameOp P)) :
    TransferSelection P :=
  candidates.foldl (selectTransferOp s)
    ⟨(named.nameOps.map RegisterNameOp.name).toFinset, named.registry, []⟩

/-! ## Collections and assets

Launches come first, so that a mint may be into a collection of the same block. -/

/-- `collection_registry_snapshot` and `launch_collection_ops`. -/
structure LaunchSelection (P : Crypto) where
  registry : KeyedMap String (CollectionRecord P)
  launchCollectionOps : List (LaunchCollectionOp P)

def keepsLaunchOp (acc : LaunchSelection P) (op : LaunchCollectionOp P) : Bool :=
  op.validateStandalone.isOk && op.collectionId ∉ acc.registry

def selectLaunchOp (acc : LaunchSelection P) (op : LaunchCollectionOp P) : LaunchSelection P :=
  if !keepsLaunchOp acc op then acc
  else
    { registry := acc.registry.insert op.collectionId
        ⟨op.collectionId, op.creatorPubkey, op.name, op.symbol, op.metadata, op.phases, nextHeight s,
          op.royaltyBps⟩
      launchCollectionOps := acc.launchCollectionOps ++ [op] }

def selectLaunchOps (candidates : List (LaunchCollectionOp P)) : LaunchSelection P :=
  candidates.foldl (selectLaunchOp s) ⟨s.collectionRegistry, []⟩

/-- `spent_this_block`, `asset_registry_snapshot`, `candidate_mint_counts` and `mint_ops`. -/
structure MintSelection (P : Crypto) where
  spentThisBlock : Finset (Commitment P)
  registry : KeyedMap String (AssetRecord P)
  counts : KeyedMap MintKey UInt32
  mintOps : List (MintAssetOp P)

-- the proposer's copy of the allowlist rule
def allowlistOk (phase : MintPhase) (op : MintAssetOp P) : Bool :=
  match phase.allowlistMerkleRoot with
  | none => true
  | some root =>
      match op.allowlistProof, op.allowlistLeafIndex with
      | some proof, some leafIndex =>
          verifyMerkleProof P (allowlistLeaf op.ownerPubkey) proof leafIndex.toNat root
      | _, _ => false

/-- The rules of a collection mint, against the kernels of the chain and of the body `tx`; the
updated counts when it is kept. -/
def selectCollectionMint (tx : Transaction P) (collections : KeyedMap String (CollectionRecord P))
    (counts : KeyedMap MintKey UInt32) (op : MintAssetOp P) (collectionId : String)
    (phaseIndex : UInt32) : Option (KeyedMap MintKey UInt32) := do
  let collection ← collections.lookup collectionId
  let phase ← collection.phases[phaseIndex.toNat]?
  ensure !(e.now < phase.startTime || e.now ≥ phase.endTime)
  ensure (allowlistOk phase op)
  let countKey : MintKey := (collectionId, phaseIndex, P.compress op.ownerPubkey.asPoint)
  let currentCount := (counts.lookup countKey).getD 0
  ensure !(currentCount ≥ phase.perWalletLimit)
  let requiredExcess ← op.requiredKernelExcess
  ensure (requiredExcess ∈ s.kernelExcesses || requiredExcess ∈ tx.excesses)
  let creatorSig ← op.creatorSignature
  let approvalMsg := MintAssetOp.collectionApprovalSigningMessage op.assetId collectionId phaseIndex
    requiredExcess op.ownerPubkey
  ensure (creatorSig.verify approvalMsg collection.creatorPubkey)
  return counts.insert countKey (currentCount + 1)

/-- The counts after a mint, if it is kept. -/
def keepsMintOp (tx : Transaction P) (collections : KeyedMap String (CollectionRecord P))
    (acc : MintSelection P) (op : MintAssetOp P) : Option (KeyedMap MintKey UInt32) :=
  if !inputsOk s acc.spentThisBlock op.feePayment || op.assetId ∈ acc.registry then none
  else
    match op.collectionId, op.phaseIndex with
    | some collectionId, some phaseIndex =>
        selectCollectionMint e s tx collections acc.counts op collectionId phaseIndex
    | _, _ => some acc.counts

def selectMintOp (tx : Transaction P) (collections : KeyedMap String (CollectionRecord P))
    (acc : MintSelection P) (op : MintAssetOp P) : MintSelection P :=
  match keepsMintOp e s tx collections acc op with
  | none => acc
  | some counts =>
      { spentThisBlock := Coins.create acc.spentThisBlock op.feePayment.spent
        registry := acc.registry.insert op.assetId
          ⟨op.assetId, op.ownerPubkey, op.metadata, nextHeight s, op.collectionId⟩
        counts := counts
        mintOps := acc.mintOps ++ [op] }

def selectMintOps (tx : Transaction P) (collections : KeyedMap String (CollectionRecord P))
    (spentThisBlock : Finset (Commitment P)) (candidates : List (MintAssetOp P)) :
    MintSelection P :=
  candidates.foldl (selectMintOp e s tx collections)
    ⟨spentThisBlock, s.assetRegistry, s.collectionMintCounts, []⟩

/-- `candidate_kernel_excesses`: the body's, the mints' and the registrations'. -/
def candidateKernelExcesses (tx : Transaction P) (mintOps : List (MintAssetOp P))
    (nameOps : List (RegisterNameOp P)) : List (Commitment P) :=
  tx.excesses ++ mintOps.flatMap (fun op => op.feePayment.excesses)
    ++ nameOps.flatMap fun op => op.feePayment.excesses

/-- `assets_touched`, `asset_registry_snapshot` and `transfer_asset_ops`. -/
structure AssetTransferSelection (P : Crypto) where
  assetsTouched : Finset String
  registry : KeyedMap String (AssetRecord P)
  transferAssetOps : List (TransferAssetOp P)

/-- The royalty rule of the proposer, read from the snapshot that holds this block's launches. -/
def royaltyOk (excesses : List (Commitment P)) (collections : KeyedMap String (CollectionRecord P))
    (current : AssetRecord P) (op : TransferAssetOp P) : Bool :=
  if op.requiredKernelExcess.isSome then
    match current.collectionId.bind fun id => collections.lookup id with
    | some collection =>
        if collection.royaltyBps > 0 then
          op.requiredRoyaltyKernelExcess.any fun c => c ∈ s.kernelExcesses || c ∈ excesses
        else
          true
    | none => true
  else
    true

/-- The record that a kept transfer replaces. -/
def keepsTransferAssetOp (excesses : List (Commitment P))
    (collections : KeyedMap String (CollectionRecord P)) (acc : AssetTransferSelection P)
    (op : TransferAssetOp P) : Option (AssetRecord P) := do
  ensure (op.assetId ∉ acc.assetsTouched)
  let current ← s.assetRegistry.lookup op.assetId
  let msg := TransferAssetOp.signingMessage op.assetId op.newOwnerPubkey op.requiredKernelExcess
    op.requiredRoyaltyKernelExcess
  ensure (op.signature.verify msg current.ownerPubkey)
  ensure (op.requiredKernelExcess.all fun c => c ∈ s.kernelExcesses || c ∈ excesses)
  ensure (royaltyOk s excesses collections current op)
  return current

def selectTransferAssetOp (excesses : List (Commitment P))
    (collections : KeyedMap String (CollectionRecord P)) (acc : AssetTransferSelection P)
    (op : TransferAssetOp P) : AssetTransferSelection P :=
  match keepsTransferAssetOp s excesses collections acc op with
  | none => acc
  | some current =>
      { assetsTouched := insert op.assetId acc.assetsTouched
        registry := acc.registry.insert op.assetId
          ⟨op.assetId, op.newOwnerPubkey, current.metadata, current.mintedAtBlock,
            current.collectionId⟩
        transferAssetOps := acc.transferAssetOps ++ [op] }

def selectTransferAssetOps (excesses : List (Commitment P))
    (collections : KeyedMap String (CollectionRecord P)) (minted : MintSelection P)
    (candidates : List (TransferAssetOp P)) : AssetTransferSelection P :=
  candidates.foldl (selectTransferAssetOp s excesses collections)
    ⟨(minted.mintOps.map MintAssetOp.assetId).toFinset, minted.registry, []⟩

/-! ## Stake registrations

Registrations of stakes are filtered by the rule that the chain applies to them. -/

/-- `candidate_validators` and `validator_ops`. -/
structure ValidatorSelection (P : Crypto) where
  validators : List (Validator P)
  validatorOps : List (RegisterValidatorOp P)

def selectValidatorOp (acc : ValidatorSelection P) (op : RegisterValidatorOp P) :
    ValidatorSelection P :=
  match tryRegisterValidator acc.validators s.utxos op with
  | some validators => ⟨validators, acc.validatorOps ++ [op]⟩
  | none => acc

def selectValidatorOps (candidates : List (RegisterValidatorOp P)) : ValidatorSelection P :=
  candidates.foldl (selectValidatorOp s) ⟨s.activeValidators, []⟩

/-! ## The coinbase

The fees are summed up over the kernels of the body. Registry fees are not among them. -/

/-- The reward of the height and the fees of everything in the body. -/
def coinbaseValue (height : UInt64) (tx : Transaction P) : UInt64 :=
  blockRewardAt height + (tx.kernels.map TxKernel.fee).sum

/-- The body with its coinbase output, of blinding factor `r`, and the kernel that balances it. -/
def withCoinbase (height : UInt64) (tx : Transaction P) (r : P.Scalar) (proof : P.RangeProof)
    (note : List UInt8) (nonce : P.Scalar) : Transaction P :=
  let excessR := 0 - r
  { inputs := tx.inputs
    outputs := tx.outputs ++ [⟨Commitment.new (coinbaseValue height tx) r, proof, note⟩]
    kernels := tx.kernels ++
      [⟨Commitment.new 0 excessR, 0, Signature.sign (toLeBytes 8 0) excessR nonce⟩] }

/-- Steps 1 to 5 of the coinbase, for the block on top of `s`. -/
def mintCoinbase (tx : Transaction P) : Transaction P :=
  let height := nextHeight s
  let value := coinbaseValue height tx
  let r := e.coinbaseBlinding height
  withCoinbase height tx r (e.prove value r) (e.coinbaseNote height.toUInt32 value) e.coinbaseNonce

/-! ## The block

What is drained from the mempool does not go back to it, whatever becomes of the block. -/

/-- What a round takes out of the mempool. -/
structure Drained (P : Crypto) where
  txBundle : Option (Transaction P)
  nameOps : List (RegisterNameOp P)
  transferOps : List (TransferNameOp P)
  launchOps : List (LaunchCollectionOp P)
  mintOps : List (MintAssetOp P)
  transferAssetOps : List (TransferAssetOp P)
  validatorOps : List (RegisterValidatorOp P)

def drain (m : Mempool P) : Drained P × Mempool P :=
  let (txBundle, m) := m.aggregate
  let (nameOps, m) := m.takeNameOps
  let (transferOps, m) := m.takeTransferOps
  let (launchOps, m) := m.takeLaunchCollectionOps
  let (mintOps, m) := m.takeMintOps
  let (transferAssetOps, m) := m.takeTransferAssetOps
  let (validatorOps, m) := m.takeValidatorOps
  (⟨txBundle, nameOps, transferOps, launchOps, mintOps, transferAssetOps, validatorOps⟩, m)

theorem drain_eq (m : Mempool P) :
    drain m =
      ({ txBundle := m.aggregate.1
         nameOps := (Queue.byFee nameOpFee m.pendingNameOps).take maxNameOpsPerBlock
         transferOps := m.pendingTransferOps.take maxTransferOpsPerBlock
         launchOps := m.pendingLaunchCollectionOps.take maxLaunchOpsPerBlock
         mintOps := (Queue.byFee mintOpFee m.pendingMintOps).take maxMintOpsPerBlock
         transferAssetOps := m.pendingTransferAssetOps.take maxTransferAssetOpsPerBlock
         validatorOps := m.pendingValidatorOps.take maxValidatorOpsPerBlock },
       { pendingTxs := (Queue.byFee txFee m.pendingTxs).drop maxTxsPerBlock
         pendingNameOps := (Queue.byFee nameOpFee m.pendingNameOps).drop maxNameOpsPerBlock
         pendingTransferOps := m.pendingTransferOps.drop maxTransferOpsPerBlock
         pendingMintOps := (Queue.byFee mintOpFee m.pendingMintOps).drop maxMintOpsPerBlock
         pendingTransferAssetOps := m.pendingTransferAssetOps.drop maxTransferAssetOpsPerBlock
         pendingLaunchCollectionOps := m.pendingLaunchCollectionOps.drop maxLaunchOpsPerBlock
         pendingValidatorOps := m.pendingValidatorOps.drop maxValidatorOpsPerBlock }) := by
  have haggregate : m.aggregate = (m.aggregate.1,
      { m with pendingTxs := (Queue.byFee txFee m.pendingTxs).drop maxTxsPerBlock }) := by
    rw [← m.aggregate_snd]
  unfold drain
  rw [haggregate]
  rfl

/-- The body before the coinbase; an empty one when nothing is pending. -/
def Drained.tx (d : Drained P) : Transaction P := d.txBundle.getD ⟨[], [], []⟩

/-- The block with everything but its signature. -/
def draftBlock (d : Drained P) (validator : Validator P) : Block P :=
  let tx := d.tx
  let named := selectNameOps s tx d.nameOps
  let names := selectTransferOps s named d.transferOps
  let launched := selectLaunchOps s d.launchOps
  let minted := selectMintOps e s tx launched.registry named.spentThisBlock d.mintOps
  let excesses := candidateKernelExcesses tx minted.mintOps named.nameOps
  let assets := selectTransferAssetOps s excesses launched.registry minted d.transferAssetOps
  let staked := selectValidatorOps s d.validatorOps
  { header :=
      { height := nextHeight s
        prevHash := s.lastBlockHash
        totalKernelOffset := 0
        nonce := 0
        timestamp := e.now
        validatorCommitment := validator.commitment
        validatorSignature := Signature.zero
        nameRegistryRoot := computeRegistryRoot names.registry
        chainId := chainId
        assetRegistryRoot := computeAssetRegistryRoot assets.registry
        collectionRegistryRoot := computeCollectionRegistryRoot launched.registry }
    body := mintCoinbase e s tx
    nameOps := named.nameOps
    transferOps := names.transferOps
    mintOps := minted.mintOps
    transferAssetOps := assets.transferAssetOps
    launchCollectionOps := launched.launchCollectionOps
    validatorOps := staked.validatorOps }

/-- The block that is applied: the draft, signed with the staking key. -/
def assembleBlock (d : Drained P) (validator : Validator P) : Block P :=
  let draft := draftBlock e s d validator
  let signature := Signature.sign draft.header.hash.toList e.privateKey e.headerNonce
  { draft with header := { draft.header with validatorSignature := signature } }

variable {e s} in
/-- While the height does not wrap, the block extends the tip. -/
theorem isLinear_assembleBlock (hnext : (nextHeight s).toNat = s.currentHeight.toNat + 1)
    (d : Drained P) (validator : Validator P) :
    s.isLinear (assembleBlock e s d validator) = true := by
  have hheight : (assembleBlock e s d validator).height.toNat = s.currentHeight.toNat + 1 := hnext
  have hprev : (assembleBlock e s d validator).header.prevHash = s.lastBlockHash := rfl
  simp [ChainState.isLinear, hheight, hprev]

/-- One pass of the loop: the chain and the mempool afterwards, and the block that was proposed with
what became of it. Whatever became of it, what was drained is gone from the mempool. -/
def round (m : Mempool P) : (ChainState P × Mempool P) × Option (Block P × ApplyResult P) :=
  match myValidator e s with
  | none => ((s, m), none)
  | some validator =>
      if !eligible e s validator then ((s, m), none)
      else
        let (drained, rest) := drain m
        let block := assembleBlock e s drained validator
        let (s', result) := s.applyBlock block
        ((s', rest), some (block, result))

end Proposer

namespace Devnet

/-- The bootstrap proposer of the devnet, whose range proofs are openings. -/
def env : Proposer.Env crypto where
  privateKey := (42 : BitVec 256)
  now := 0
  stalledFor := 0
  coinbaseBlinding height := BitVec.ofNat 256 (1000 + height.toNat)
  prove value blinding := (value, blinding)
  coinbaseNote _ _ := []
  stakeNonce := (5 : BitVec 256)
  coinbaseNonce := (5 : BitVec 256)
  headerNonce := (9 : BitVec 256)

end Devnet

end Haze
