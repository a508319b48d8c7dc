import Haze.Registries

/-!
# Blocks, the genesis constants and vesting (`block.rs`, `genesis.rs`, `vesting.rs`)

A block is a header, one cut-through transaction (the body) and six lists of operations. The header
hash covers the header fields only; the body and the operations reach it through the three registry
roots and nothing else.
-/

namespace Haze

variable {P : Crypto}

/-! ## Constants (`genesis.rs`)

The tranches are fixed outputs of the genesis block; of each only its commitment is needed, and when it is
unlocked. -/

def totalSupplyTarget : UInt64 := 21_000_000_000
def halvingIntervalBlocks : UInt64 := 12_600_000
def initialBlockReward : UInt64 := 540

def teamAllocation : UInt64 := 2_730_000_000
def investorAllocation : UInt64 := 2_730_000_000
def airdropAllocation : UInt64 := 1_260_000_000
def treasuryAllocation : UInt64 := 630_000_000

def genesisTotalMinted : UInt64 :=
  1_000_000 + teamAllocation + investorAllocation + airdropAllocation + treasuryAllocation

def vestingTrancheCount : UInt64 := 7
def chainId : UInt64 := 1

/-- The stake of the bootstrap validator, and the value of its genesis output. -/
def genesisStake : UInt64 := 1_000_000

/-- The output the bootstrap validator signs with before anyone registers. -/
def genesisDefault (P : Crypto) : Commitment P :=
  Commitment.new genesisStake P.genesisValidatorBlinding

/-- The fields of `LockedOutputData` that consensus reads. -/
structure LockedOutputData where
  value : UInt64
  commitmentHex : String

/-- `LockedOutputData::commitment`. The source panics when a hard-coded constant does not decode;
here such an entry has no commitment. -/
def LockedOutputData.commitment (data : LockedOutputData) : Option (Commitment P) :=
  match Commitment.fromHex data.commitmentHex with
  | .ok c => c
  | .error _ => none

-- both allocations are split evenly over the tranches
def tranches (allocation : UInt64) (hexes : List String) : List LockedOutputData :=
  hexes.map fun hex => ⟨allocation / vestingTrancheCount, hex⟩

def teamTranches : List LockedOutputData :=
  tranches teamAllocation
    ["1aa6b8820e6fdf5a505d20506aac2a3a4699c3346e5c8ab52c3af26b541b7b5e",
     "4a38b99646f39d6a22753a3a50294f6a78039f3d66f402d106ecfc39e1310714",
     "e828911b58643d6776d02b33c5d5e3cb2ffa40b97a19537bc043fc6e350b1a63",
     "c8f1b3124efdcd72ff844deb787d513854f76005101768c45ab14b9d55023725",
     "32ef1be1abb44cf40ced0c411a07f7ec0be92a07abd0df97e4e9190f783bf829",
     "7e7faefc01c6cdbe33ea9c11a6a115a0128be36e7ff9dd842fa7651ab9c2d715",
     "9ce2ec3c82bf204a8a3f07e86d1f979d2f24fbc1a093e440f47a5332e787f87a"]

def investorTranches : List LockedOutputData :=
  tranches investorAllocation
    ["4687ba198a1eb1b8e7c6b538b6caa833470a9661de2297e298f9edf09761b617",
     "a083b9609f7bb0b17e35df70c64a474ee4a283ba821b5728eeb1efb5218a626e",
     "4e97b53d34a57228e5d07bc7502f7ab22afee110c4be12586d9b683e6535eb0e",
     "320791264f0e461ed0f1cc982ef2342c548b6916204338ffcdbfd14356c9d95e",
     "3a99f0ea51a406abfd06d181d451947183398b40c0648c58b4b8fd70599c4752",
     "f065853e51e1749e2f2706e824f6349ca9dad8e2defd8694ddbfe7caef39c850",
     "3a299f6de316b39403beceadaf188de0b5b383d2aa8d99177564aad8338d3241"]

/-! ## Vesting (`vesting.rs`)

A tranche is told by its commitment, and may be spent from a height on which depends on its place in the
list. -/

def blocksPerYear : UInt64 := 3_155_760
def vestingCliffBlocks : UInt64 := blocksPerYear / 2
def vestingTrancheIntervalBlocks : UInt64 := blocksPerYear / 4

def trancheUnlockHeight (trancheIndex : ℕ) : UInt64 :=
  vestingCliffBlocks + UInt64.ofNat trancheIndex * vestingTrancheIntervalBlocks

def lockedTranches (P : Crypto) (data : List LockedOutputData) : List (Commitment P × UInt64) :=
  data.zipIdx.filterMap fun d => d.1.commitment.map fun c => (c, trancheUnlockHeight d.2)

/-- `locked_genesis_outputs`: every team and investor tranche with its unlock height. -/
def lockedGenesisOutputs (P : Crypto) : List (Commitment P × UInt64) :=
  lockedTranches P teamTranches ++ lockedTranches P investorTranches

def spendsLockedOutputEarly (inputs : List (Input P)) (blockHeight : UInt64) : Bool :=
  inputs.any fun input =>
    (lockedGenesisOutputs P).any fun l => input.commitment == l.1 && blockHeight < l.2

/-! ## Blocks (`block.rs`) -/

/-- `block_reward_at`: halve every `halvingIntervalBlocks`, down to zero. -/
def blockRewardAt (height : UInt64) : UInt64 :=
  let halvings := height / halvingIntervalBlocks
  if halvings ≥ 64 then 0 else initialBlockReward >>> halvings

structure BlockHeader (P : Crypto) where
  height : UInt64
  prevHash : Bytes32
  totalKernelOffset : P.Scalar
  nonce : UInt64
  timestamp : UInt64
  validatorCommitment : Commitment P
  validatorSignature : Signature P
  nameRegistryRoot : Bytes32
  chainId : UInt64
  assetRegistryRoot : Bytes32
  collectionRegistryRoot : Bytes32
  deriving DecidableEq

def BlockHeader.hash (h : BlockHeader P) : Bytes32 :=
  P.sha256 <|
    toLeBytes 8 h.height.toNat ++ h.prevHash.toList ++ (P.scalarBytes h.totalKernelOffset).toList
    ++ toLeBytes 8 h.nonce.toNat ++ toLeBytes 8 h.timestamp.toNat ++ h.validatorCommitment.toBytes
    ++ (P.scalarBytes h.validatorSignature.s).toList
    ++ (P.scalarBytes h.validatorSignature.e).toList ++ h.nameRegistryRoot.toList
    ++ toLeBytes 8 h.chainId.toNat ++ h.assetRegistryRoot.toList ++ h.collectionRegistryRoot.toList

/-- What the proposer signs: the header with the signature blanked. -/
def BlockHeader.signingHash (h : BlockHeader P) : Bytes32 :=
  { h with validatorSignature := Signature.zero }.hash

/-- The operation form of a stake registration (`chain.rs`). -/
structure RegisterValidatorOp (P : Crypto) where
  commitment : Commitment P
  value : UInt64
  proof : Signature P
  deriving DecidableEq

structure Block (P : Crypto) where
  header : BlockHeader P
  body : Transaction P
  nameOps : List (RegisterNameOp P)
  transferOps : List (TransferNameOp P)
  mintOps : List (MintAssetOp P)
  transferAssetOps : List (TransferAssetOp P)
  launchCollectionOps : List (LaunchCollectionOp P)
  validatorOps : List (RegisterValidatorOp P)

namespace Block

/-- The hash the block is stored under. -/
def hash (b : Block P) : Bytes32 := b.header.hash

def height (b : Block P) : UInt64 := b.header.height

/-- The reward the body may mint. -/
def reward (b : Block P) : UInt64 :=
  if b.height = 0 then genesisTotalMinted else blockRewardAt b.height

/-- `Block::validate`: the body alone, against the reward of the height the header claims. -/
def validate (b : Block P) : Bool :=
  b.body.validateWithReward b.reward

/-- The fee payments of the block in the order the chain applies them: names, then mints. -/
def payments (b : Block P) : List (Transaction P) :=
  b.nameOps.map RegisterNameOp.feePayment ++ b.mintOps.map MintAssetOp.feePayment

/-- Every transaction of the block: the body, then the fee payments. -/
def transactions (b : Block P) : List (Transaction P) :=
  b.body :: b.payments

/-- All commitments the block consumes. -/
def consumed (b : Block P) : List (Commitment P) :=
  b.transactions.flatMap Transaction.spent

/-- All commitments the block creates. -/
def created (b : Block P) : List (Commitment P) :=
  b.transactions.flatMap Transaction.created

/-- All kernels the block records. -/
def kernels (b : Block P) : List (TxKernel P) :=
  b.transactions.flatMap Transaction.kernels

/-- The excesses of those kernels. -/
def excesses (b : Block P) : List (Commitment P) :=
  b.kernels.map TxKernel.excess

end Block

/-- `genesis_block()`. The range proof of the stake output, the nonce of its kernel signature and the
outputs rebuilt from the published tranche data are arguments. -/
def genesisBlock (validatorProof : P.RangeProof) (nonce : P.Scalar)
    (locked : List (Output P × TxKernel P)) : Block P :=
  let validatorExcessBlinding := 0 - P.genesisValidatorBlinding
  let validatorKernel : TxKernel P :=
    { excess := Commitment.new 0 validatorExcessBlinding
      fee := 0
      signature := Signature.sign (toLeBytes 8 0) validatorExcessBlinding nonce }
  { header :=
      { height := 0
        prevHash := zeroHash
        totalKernelOffset := 0
        nonce := 0
        timestamp := 0
        validatorCommitment := genesisDefault P
        validatorSignature := Signature.zero
        nameRegistryRoot := computeRegistryRoot (P := P) ∅
        chainId := chainId
        assetRegistryRoot := computeAssetRegistryRoot (P := P) ∅
        collectionRegistryRoot := computeCollectionRegistryRoot (P := P) ∅ }
    body :=
      { inputs := []
        outputs := ⟨genesisDefault P, validatorProof, []⟩ :: locked.map Prod.fst
        kernels := validatorKernel :: locked.map Prod.snd }
    nameOps := []
    transferOps := []
    mintOps := []
    transferAssetOps := []
    launchCollectionOps := []
    validatorOps := [] }

end Haze
