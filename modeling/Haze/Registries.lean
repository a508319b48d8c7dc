import Haze.Transaction
import Haze.Lib.KeyedMap
import Mathlib.Data.String.Basic

/-!
# Names, assets and collections (`registry.rs`, `assets.rs`, `collections.rs`, `merkle.rs`)

Three public registries live in consensus state beside the coins: names, assets (NFTs) and the
collections that assets are minted from. This module has their records, the operations a block
carries for each, the messages those operations sign, the checks that need no chain state
(`validateStandalone`), and the root a header commits to.

The three roots are one function, and so are the three identifier checks and the two fee-payment
checks; each keeps its own name with its own constants.
-/

namespace Haze

variable {P : Crypto}

/-! ## What the registries share

Names, assets and collections have identifiers of one shape. A registration and a mint bring the payment of
their fee along, a transaction that is not part of the body. -/

-- `is_ascii_lowercase() || is_ascii_digit() || c == '-' || c == '_'`
def idChar (c : Char) : Bool :=
  ('a' ≤ c && c ≤ 'z') || ('0' ≤ c && c ≤ '9') || c == '-' || c == '_'

/-- The shape check of an identifier: byte length between two bounds, then the alphabet. -/
def validateId {ε : Type} (minLength maxLength : ℕ) (tooShort tooLong invalidCharacters : ε)
    (id : String) : Except ε Unit :=
  if (asBytes id).length < minLength then .error tooShort
  else if (asBytes id).length > maxLength then .error tooLong
  else if !id.toList.all idChar then .error invalidCharacters
  else .ok ()

/-- A fee payment has exactly one kernel, which pays at least the floor, and balances on its own. -/
def checkFeePayment {ε : Type} (floor : UInt64) (invalid : ε) (tx : Transaction P) :
    Except ε Unit :=
  match tx.kernels with
  | [k] =>
      if k.fee < floor then .error invalid
      else if tx.validate then .ok ()
      else .error invalid
  | _ => .error invalid

theorem checkFeePayment_ok {ε : Type} {floor : UInt64} {invalid : ε} {tx : Transaction P}
    (h : checkFeePayment floor invalid tx = .ok ()) :
    (∃ k, tx.kernels = [k] ∧ floor ≤ k.fee) ∧ tx.validate = true := by
  unfold checkFeePayment at h
  split at h
  next k hk =>
    split at h
    · cases h
    next hfee =>
      split at h
      next hval => exact ⟨⟨k, hk, UInt64.not_lt.mp hfee⟩, hval⟩
      next => cases h
  next => cases h

/-- A registry root: the records in key order, encoded one after another and hashed. -/
def registryRoot {V : Type} (encode : V → Serde) (registry : KeyedMap String V) : Bytes32 :=
  P.sha256 (registry.sortedValues.flatMap fun r => P.bincode (encode r))

/-- `Serialize for Commitment`. -/
def Commitment.serde (c : Commitment P) : Serde := .bytes c.toBytes

-- a tag byte per `Option` before its payload
def optionBytes (c : Option (Commitment P)) : List UInt8 :=
  match c with
  | some c => 1 :: c.toBytes
  | none => [0]

/-! ## Names (`registry.rs`) -/

def nameRegistrationFee : UInt64 := 5
def minNameLength : ℕ := 3
def maxNameLength : ℕ := 32

def reservedNames : List String :=
  ["haze", "admin", "team", "validator", "validators", "system", "root",
   "genesis", "faucet", "null", "none", "node", "api", "explorer", "wallet"]

inductive NameError where
  | tooShort
  | tooLong
  | invalidCharacters
  | reserved
  | alreadyRegistered
  | invalidSignature
  | invalidFeePayment
  deriving DecidableEq

structure NameRecord (P : Crypto) where
  name : String
  ownerPubkey : Commitment P
  resolvesTo : Commitment P
  registeredAtBlock : UInt64
  deriving DecidableEq

def NameRecord.serde (r : NameRecord P) : Serde :=
  .struct [.str r.name, r.ownerPubkey.serde, r.resolvesTo.serde, .u64 r.registeredAtBlock]

structure RegisterNameOp (P : Crypto) where
  name : String
  ownerPubkey : Commitment P
  resolvesTo : Commitment P
  feePayment : Transaction P
  signature : Signature P

structure TransferNameOp (P : Crypto) where
  name : String
  newOwnerPubkey : Commitment P
  newResolvesTo : Commitment P
  /-- By the current owner, which only the chain state knows. -/
  signature : Signature P
  deriving DecidableEq

def validateName (name : String) : Except NameError Unit := do
  validateId minNameLength maxNameLength .tooShort .tooLong .invalidCharacters name
  if name ∈ reservedNames then throw .reserved

def RegisterNameOp.signingMessage (name : String) : List UInt8 :=
  asBytes name

def RegisterNameOp.validateStandalone (op : RegisterNameOp P) : Except NameError Unit := do
  validateName op.name
  if !op.signature.verify (signingMessage op.name) op.ownerPubkey then throw .invalidSignature
  checkFeePayment nameRegistrationFee .invalidFeePayment op.feePayment

def TransferNameOp.signingMessage (name : String) (newOwnerPubkey newResolvesTo : Commitment P) :
    List UInt8 :=
  asBytes "HazeNameTransfer:" ++ asBytes name ++ newOwnerPubkey.toBytes ++ newResolvesTo.toBytes

def computeRegistryRoot (registry : KeyedMap String (NameRecord P)) : Bytes32 :=
  registryRoot (P := P) NameRecord.serde registry

/-! ## Assets (`assets.rs`) -/

def assetMintFee : UInt64 := 5
def minAssetIdLength : ℕ := 3
def maxAssetIdLength : ℕ := 64
def maxMetadataBytes : ℕ := 2048
def maxAllowlistProofLength : ℕ := 64

inductive AssetError where
  | tooShort
  | tooLong
  | invalidCharacters
  | alreadyMinted
  | invalidSignature
  | invalidFeePayment
  | metadataTooLong
  | collectionFieldsMismatched
  | missingOrInvalidCreatorApproval
  | allowlistProofTooLong
  deriving DecidableEq

structure AssetRecord (P : Crypto) where
  assetId : String
  ownerPubkey : Commitment P
  metadata : List UInt8
  mintedAtBlock : UInt64
  collectionId : Option String
  deriving DecidableEq

def AssetRecord.serde (r : AssetRecord P) : Serde :=
  .struct [.str r.assetId, r.ownerPubkey.serde, .byteSeq r.metadata, .u64 r.mintedAtBlock,
    .option (r.collectionId.map .str)]

structure MintAssetOp (P : Crypto) where
  assetId : String
  ownerPubkey : Commitment P
  metadata : List UInt8
  feePayment : Transaction P
  collectionId : Option String
  phaseIndex : Option UInt32
  allowlistProof : Option (List Bytes32)
  allowlistLeafIndex : Option UInt32
  requiredKernelExcess : Option (Commitment P)
  /-- By `ownerPubkey`, the new owner. -/
  signature : Signature P
  /-- By the creator of the collection, over `collectionApprovalSigningMessage`. -/
  creatorSignature : Option (Signature P)

structure TransferAssetOp (P : Crypto) where
  assetId : String
  newOwnerPubkey : Commitment P
  requiredKernelExcess : Option (Commitment P)
  requiredRoyaltyKernelExcess : Option (Commitment P)
  signature : Signature P
  deriving DecidableEq

def validateAssetId (assetId : String) : Except AssetError Unit :=
  validateId minAssetIdLength maxAssetIdLength .tooShort .tooLong .invalidCharacters assetId

namespace MintAssetOp

def signingMessage (assetId : String) (metadata : List UInt8) (collectionId : Option String)
    (phaseIndex : Option UInt32) (requiredKernelExcess : Option (Commitment P)) : List UInt8 :=
  asBytes assetId ++ metadata
    ++ (match collectionId with | some id => 1 :: asBytes id | none => [0])
    ++ (match phaseIndex with | some i => 1 :: toLeBytes 4 i.toNat | none => [0])
    ++ optionBytes requiredKernelExcess

def collectionApprovalSigningMessage (assetId collectionId : String) (phaseIndex : UInt32)
    (requiredKernelExcess ownerPubkey : Commitment P) : List UInt8 :=
  asBytes "HazeCollectionMintApproval:" ++ asBytes assetId ++ asBytes collectionId
    ++ toLeBytes 4 phaseIndex.toNat ++ requiredKernelExcess.toBytes ++ ownerPubkey.toBytes

def validateStandalone (op : MintAssetOp P) : Except AssetError Unit := do
  validateAssetId op.assetId
  if op.metadata.length > maxMetadataBytes then throw .metadataTooLong
  if op.collectionId.isSome != op.phaseIndex.isSome then throw .collectionFieldsMismatched
  if op.allowlistProof.any fun proof => proof.length > maxAllowlistProofLength then
    throw .allowlistProofTooLong
  let msg := signingMessage op.assetId op.metadata op.collectionId op.phaseIndex
    op.requiredKernelExcess
  if !op.signature.verify msg op.ownerPubkey then throw .invalidSignature
  checkFeePayment assetMintFee .invalidFeePayment op.feePayment

end MintAssetOp

def TransferAssetOp.signingMessage (assetId : String) (newOwnerPubkey : Commitment P)
    (requiredKernelExcess requiredRoyaltyKernelExcess : Option (Commitment P)) : List UInt8 :=
  asBytes "HazeAssetTransfer:" ++ asBytes assetId ++ newOwnerPubkey.toBytes
    ++ optionBytes requiredKernelExcess ++ optionBytes requiredRoyaltyKernelExcess

def computeAssetRegistryRoot (registry : KeyedMap String (AssetRecord P)) : Bytes32 :=
  registryRoot (P := P) AssetRecord.serde registry

/-! ## Collections (`collections.rs`) -/

def minCollectionIdLength : ℕ := 3
def maxCollectionIdLength : ℕ := 64
def maxCollectionNameLength : ℕ := 64
def maxCollectionSymbolLength : ℕ := 16
def maxRoyaltyBps : UInt16 := 10000
def maxPhases : ℕ := 32

inductive CollectionError where
  | tooShort
  | tooLong
  | invalidCharacters
  | alreadyLaunched
  | invalidSignature
  | metadataTooLong
  | nameTooLong
  | symbolTooLong
  | noPhases
  | tooManyPhases
  | invalidPhaseWindow
  | phasesNotSequential
  | zeroPerWalletLimit
  | royaltyTooHigh
  deriving DecidableEq

/-- One round of a mint schedule; `allowlistMerkleRoot = none` is open to everyone. -/
structure MintPhase where
  name : String
  startTime : UInt64
  endTime : UInt64
  price : UInt64
  perWalletLimit : UInt32
  allowlistMerkleRoot : Option Bytes32
  deriving DecidableEq

def MintPhase.serde (p : MintPhase) : Serde :=
  .struct [.str p.name, .u64 p.startTime, .u64 p.endTime, .u64 p.price, .u32 p.perWalletLimit,
    .option (p.allowlistMerkleRoot.map .array)]

structure CollectionRecord (P : Crypto) where
  collectionId : String
  creatorPubkey : Commitment P
  name : String
  symbol : String
  metadata : List UInt8
  phases : List MintPhase
  launchedAtBlock : UInt64
  royaltyBps : UInt16
  deriving DecidableEq

def CollectionRecord.serde (r : CollectionRecord P) : Serde :=
  .struct [.str r.collectionId, r.creatorPubkey.serde, .str r.name, .str r.symbol,
    .byteSeq r.metadata, .seq (r.phases.map MintPhase.serde), .u64 r.launchedAtBlock,
    .u16 r.royaltyBps]

structure LaunchCollectionOp (P : Crypto) where
  collectionId : String
  creatorPubkey : Commitment P
  name : String
  symbol : String
  metadata : List UInt8
  phases : List MintPhase
  royaltyBps : UInt16
  signature : Signature P

def validateCollectionId (collectionId : String) : Except CollectionError Unit :=
  validateId minCollectionIdLength maxCollectionIdLength .tooShort .tooLong .invalidCharacters
    collectionId

-- the body of the first loop of `validate_phases`
def validatePhase (phase : MintPhase) : Except CollectionError Unit := do
  if (asBytes phase.name).length > maxCollectionNameLength then throw .nameTooLong
  if phase.startTime ≥ phase.endTime then throw .invalidPhaseWindow
  if phase.perWalletLimit = 0 then throw .zeroPerWalletLimit

-- the second loop, over `phases.windows(2)`
def validateWindows : List MintPhase → Except CollectionError Unit
  | p :: q :: rest =>
      if p.endTime > q.startTime then .error .phasesNotSequential else validateWindows (q :: rest)
  | _ => .ok ()

def validatePhases (phases : List MintPhase) : Except CollectionError Unit := do
  if phases.isEmpty then throw .noPhases
  if phases.length > maxPhases then throw .tooManyPhases
  phases.forM validatePhase
  validateWindows phases

namespace LaunchCollectionOp

def signingMessage (collectionId : String) (creatorPubkey : Commitment P) (name symbol : String)
    (metadata : List UInt8) (phases : List MintPhase) (royaltyBps : UInt16) : List UInt8 :=
  asBytes "HazeLaunchCollection:" ++ asBytes collectionId ++ creatorPubkey.toBytes ++ asBytes name
    ++ asBytes symbol ++ metadata ++ P.bincode (.seq (phases.map MintPhase.serde))
    ++ toLeBytes 2 royaltyBps.toNat

def validateStandalone (op : LaunchCollectionOp P) : Except CollectionError Unit := do
  validateCollectionId op.collectionId
  if (asBytes op.name).length > maxCollectionNameLength then throw .nameTooLong
  if (asBytes op.symbol).length > maxCollectionSymbolLength then throw .symbolTooLong
  if op.metadata.length > maxMetadataBytes then throw .metadataTooLong
  if op.royaltyBps > maxRoyaltyBps then throw .royaltyTooHigh
  validatePhases op.phases
  let msg := signingMessage op.collectionId op.creatorPubkey op.name op.symbol op.metadata op.phases
    op.royaltyBps
  if !op.signature.verify msg op.creatorPubkey then throw .invalidSignature

end LaunchCollectionOp

def allowlistLeaf (pubkey : Commitment P) : Bytes32 :=
  P.sha256 pubkey.toBytes

def computeCollectionRegistryRoot (registry : KeyedMap String (CollectionRecord P)) : Bytes32 :=
  registryRoot (P := P) CollectionRecord.serde registry

/-! ## Merkle proofs (`merkle.rs`) -/

def hashPair (P : Crypto) (left right : Bytes32) : Bytes32 :=
  P.sha256 (left.toList ++ right.toList)

/-- `verify_merkle_proof`: fold the siblings from the leaf up, the index's bits choosing sides. -/
def verifyMerkleProof (P : Crypto) (leaf : Bytes32) (proof : List Bytes32) (leafIndex : ℕ)
    (root : Bytes32) : Bool :=
  match proof with
  | [] => leaf = root
  | sibling :: rest =>
      let next := if leafIndex % 2 = 0 then hashPair P leaf sibling else hashPair P sibling leaf
      verifyMerkleProof P next rest (leafIndex / 2) root

end Haze
