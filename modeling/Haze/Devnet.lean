import Haze.Chain.Reorg
import Mathlib.Algebra.Algebra.Defs
import Mathlib.Data.BitVec

/-!
# A devnet to run the model on

`Devnet.crypto` fills in the dependencies with functions that compute: points and scalars are 256-bit
integers with `B = 1` and `B_blinding = 2 ^ 64`, so a commitment shows its value in the low 64 bits
and its blinding factor above them, and a range proof is the opening. Hashes and challenges are
polynomials in the bytes they absorb. The encoder is bincode's format.

The rest of the module builds blocks the way `core::proposer` does — coinbase output, coinbase kernel,
registry roots, proposer signature — so that the theorems about the chain can be run on real blocks.
-/

namespace Haze.Devnet

/-- A polynomial in the bytes, modulo a prime of 255 bits, as a stand-in digest. -/
def digest (bytes : List UInt8) : ℕ :=
  bytes.foldl (fun acc b => (acc * 257 + b.toNat + 1) %
    57896044618658097711785492504343953926634992332820282019728792003956564819949) 1

theorem length_toLeBytes (w n : ℕ) : (toLeBytes w n).length = w := by
  induction w generalizing n with
  | zero => rfl
  | succ w ih => rw [toLeBytes, List.length_cons, ih]

def natBytes (n : ℕ) : Bytes32 :=
  ⟨toLeBytes 32 n, length_toLeBytes 32 n⟩

def bytesNat (bytes : List UInt8) : ℕ :=
  bytes.foldr (fun b acc => b.toNat + 256 * acc) 0

mutual
/-- bincode's fixed-width little-endian format. -/
def encode : Serde → List UInt8
  | .u16 n => toLeBytes 2 n.toNat
  | .u32 n => toLeBytes 4 n.toNat
  | .u64 n => toLeBytes 8 n.toNat
  | .str s => toLeBytes 8 (asBytes s).length ++ asBytes s
  | .bytes bs => toLeBytes 8 bs.length ++ bs
  | .array bs => bs.toList
  | .byteSeq bs => toLeBytes 8 bs.length ++ bs
  | .option none => [0]
  | .option (some v) => 1 :: encode v
  | .seq vs => toLeBytes 8 vs.length ++ encodeAll vs
  | .struct fields => encodeAll fields
def encodeAll : List Serde → List UInt8
  | [] => []
  | v :: vs => encode v ++ encodeAll vs
end

theorem bytesNat_toLeBytes (w n : ℕ) : bytesNat (toLeBytes w n) = n % 256 ^ w := by
  induction w generalizing n with
  | zero => simp [bytesNat, toLeBytes, Nat.mod_one]
  | succ w ih =>
      show (UInt8.ofNat n).toNat + 256 * bytesNat (toLeBytes w (n / 256)) = _
      rw [ih, UInt8.toNat_ofNat', show 256 ^ (w + 1) = 256 * 256 ^ w from Nat.pow_succ',
        Nat.mod_mul]

def crypto : Crypto where
  Scalar := BitVec 256
  Point := BitVec 256
  RangeProof := UInt64 × BitVec 256
  B := 1
  BBlinding := BitVec.ofNat 256 (2 ^ 64)
  scalarBytes x := natBytes x.toNat
  compress p := natBytes p.toNat
  decompress bytes := some (BitVec.ofNat 256 (bytesNat bytes.toList))
  challenge msg pk r := BitVec.ofNat 256 (digest (msg ++ pk.toList ++ r.toList))
  verifyRange proof bytes := natBytes (proof.1.toNat + proof.2.toNat * 2 ^ 64) == bytes
  sha256 bytes := natBytes (digest bytes)
  bincode := encode
  genesisValidatorBlinding := 42
  decompress_compress := by
    intro p
    have h := bytesNat_toLeBytes 32 p.toNat
    have hp : p.toNat < 256 ^ 32 := p.isLt
    simp only [natBytes, List.Vector.toList_mk, h, Nat.mod_eq_of_lt hp, BitVec.ofNat_toNat,
      BitVec.setWidth_eq]

/-! ## Range proofs

A proof is the opening: value and blinding factor, of 256 bits. -/

theorem toLeBytes_mod (w n : ℕ) : toLeBytes w (n % 256 ^ w) = toLeBytes w n := by
  induction w generalizing n with
  | zero => rfl
  | succ w ih =>
      have hhead : UInt8.ofNat (n % 256 ^ (w + 1)) = UInt8.ofNat n := by
        rw [← UInt8.toNat_inj, UInt8.toNat_ofNat', UInt8.toNat_ofNat']
        exact Nat.mod_mod_of_dvd n (Dvd.intro_left (256 ^ w) rfl)
      have htail : n % 256 ^ (w + 1) / 256 = n / 256 % 256 ^ w := by
        rw [Nat.pow_succ', Nat.mod_mul_right_div_self]
      rw [toLeBytes, toLeBytes, hhead, htail, ih]

theorem natBytes_mod (n : ℕ) : natBytes (n % 2 ^ 256) = natBytes n := by
  have hwidth : 2 ^ 256 = 256 ^ 32 := by
    rw [show (256 : ℕ) ^ 32 = (2 ^ 8) ^ 32 from rfl, ← pow_mul]
  apply List.Vector.eq
  rw [hwidth]
  exact toLeBytes_mod 32 n

theorem asPoint_new (value : UInt64) (r : BitVec 256) :
    (Commitment.new (P := crypto) value r).asPoint =
      BitVec.ofNat 256 (value.toNat + r.toNat * 2 ^ 64) := by
  show BitVec.ofNat 256 value.toNat * 1 + r * BitVec.ofNat 256 (2 ^ 64) = _
  rw [mul_one, BitVec.ofNat_add, BitVec.ofNat_mul, BitVec.ofNat_toNat, BitVec.setWidth_eq]

theorem compress_eq (p : BitVec 256) : crypto.compress p = natBytes p.toNat := rfl

theorem verifyRange_eq (value : UInt64) (r : BitVec 256) (bytes : Bytes32) :
    crypto.verifyRange (value, r) bytes =
      (natBytes (value.toNat + r.toNat * 2 ^ 64) == bytes) := rfl

/-- The opening of a commitment is a proof for it. -/
theorem verifyRange_opening (value : UInt64) (r : BitVec 256) :
    crypto.verifyRange (value, r)
      (crypto.compress (Commitment.new (P := crypto) value r).asPoint) = true := by
  have hbytes : crypto.compress (Commitment.new (P := crypto) value r).asPoint =
      natBytes (value.toNat + r.toNat * 2 ^ 64) := by
    rw [asPoint_new]
    refine (compress_eq _).trans ?_
    rw [BitVec.toNat_ofNat, natBytes_mod]
  rw [verifyRange_eq]
  exact beq_iff_eq.mpr hbytes.symm

/-! ## Building blocks -/

/-- An output of `value` with blinding factor `r`. -/
def output (value : UInt64) (r : BitVec 256) : Output crypto :=
  ⟨Commitment.new (P := crypto) value r, (value, r), []⟩

/-- A kernel of blinding `x` paying `fee`, signed with `x`. -/
def kernel (x : BitVec 256) (fee : UInt64) : TxKernel crypto :=
  ⟨Commitment.new (P := crypto) 0 x, fee, Signature.sign (P := crypto) (toLeBytes 8 fee.toNat) x 5⟩

/-- The devnet genesis: the bootstrap stake, and the rest of the supply in one output with blinding
factor 7. -/
def genesis : Block crypto :=
  genesisBlock (P := crypto) (1_000_000, 42) 5
    [(output (genesisTotalMinted - 1_000_000) 7, kernel (0 - 7) 0)]

-- the opening, on this curve, of the first team tranche
def trancheValue : UInt64 := 6548074491333355034
def trancheBlinding : BitVec 256 := 2316664578214421991108911580009827309042829442713565289808

/-- A genesis that holds the first team tranche. Its value exceeds the supply, so the other output
wraps and the last kernel carries the overflow into the blinding factors. -/
def vestedGenesis : Block crypto :=
  genesisBlock (P := crypto) (1_000_000, 42) 5
    [(output trancheValue trancheBlinding, kernel (0 - trancheBlinding) 0),
     (output (genesisTotalMinted - 1_000_000 - trancheValue) 7, kernel (0 - 8) 0)]

/-- A body that only mints the reward of its height, to the blinding factor `r`. -/
def coinbase (height : UInt64) (r : BitVec 256) : Transaction crypto :=
  ⟨[], [output (blockRewardAt height) r], [kernel (0 - r) 0]⟩

/-- Sign a block with the stake key `sk`. -/
def sealBlock (sk : BitVec 256) (b : Block crypto) : Block crypto :=
  { b with header := { b.header with
      validatorSignature := Signature.sign (P := crypto) b.header.signingHash.toList sk 9 } }

/-- The next block on `s` with the given body and no operations, before it is signed. -/
def draft (s : ChainState crypto) (proposer : Commitment crypto) (body : Transaction crypto) :
    Block crypto where
  header :=
    { height := s.currentHeight + 1
      prevHash := s.lastBlockHash
      totalKernelOffset := (0 : BitVec 256)
      nonce := 0
      timestamp := 0
      validatorCommitment := proposer
      validatorSignature := Signature.zero
      nameRegistryRoot := computeRegistryRoot s.nameRegistry
      chainId := chainId
      assetRegistryRoot := computeAssetRegistryRoot s.assetRegistry
      collectionRegistryRoot := computeCollectionRegistryRoot s.collectionRegistry }
  body := body
  nameOps := []
  transferOps := []
  mintOps := []
  transferAssetOps := []
  launchCollectionOps := []
  validatorOps := []

/-- The next block, proposed by the bootstrap validator. -/
def mine (s : ChainState crypto) (body : Transaction crypto) : Block crypto :=
  sealBlock 42 (draft s (genesisDefault crypto) body)

/-- Another block for the same place, told apart by its nonce. -/
def mineRival (s : ChainState crypto) (body : Transaction crypto) : Block crypto :=
  let b := draft s (genesisDefault crypto) body
  sealBlock 42 { b with header := { b.header with nonce := 1 } }

/-- Spend one output `(value, r)` in full to the blinding factor `r'`, burning `fee`. -/
def payment (value : UInt64) (r r' : BitVec 256) (fee : UInt64) : Transaction crypto :=
  ⟨[⟨Commitment.new (P := crypto) value r⟩], [output (value - fee) r'], [kernel (r - r') fee]⟩

/-- A registration of `name` by the key `sk`. -/
def nameOp (name : String) (sk : BitVec 256) (feePayment : Transaction crypto) :
    RegisterNameOp crypto :=
  let owner := Commitment.new (P := crypto) 0 sk
  ⟨name, owner, owner, feePayment, Signature.sign (P := crypto) (asBytes name) sk 5⟩

/-- Put registrations into a draft and commit its header to the registry they lead to. -/
def withNames (s : ChainState crypto) (ops : List (RegisterNameOp crypto)) (b : Block crypto) :
    Block crypto :=
  let registry := ops.foldl (fun m op =>
    m.insert op.name ⟨op.name, op.ownerPubkey, op.resolvesTo, b.height⟩) s.nameRegistry
  { b with
    nameOps := ops
    header := { b.header with nameRegistryRoot := computeRegistryRoot registry } }

/-- The next block with registrations, proposed by the bootstrap validator. -/
def mineNames (s : ChainState crypto) (body : Transaction crypto)
    (ops : List (RegisterNameOp crypto)) : Block crypto :=
  sealBlock 42 (withNames s ops (draft s (genesisDefault crypto) body))

/-- A transfer of `name` from the key `sk` to the key `sk'`. -/
def transferOp (name : String) (sk sk' : BitVec 256) : TransferNameOp crypto :=
  let owner := Commitment.new (P := crypto) 0 sk'
  ⟨name, owner, owner,
    Signature.sign (P := crypto) (TransferNameOp.signingMessage name owner owner) sk 5⟩

/-- The next block with one transfer of a name, proposed by the bootstrap validator. -/
def mineTransfer (s : ChainState crypto) (body : Transaction crypto) (op : TransferNameOp crypto) :
    Block crypto :=
  let b := draft s (genesisDefault crypto) body
  let registry := match s.nameRegistry.lookup op.name with
    | some r => s.nameRegistry.insert op.name
        ⟨op.name, op.newOwnerPubkey, op.newResolvesTo, r.registeredAtBlock⟩
    | none => s.nameRegistry
  sealBlock 42 { b with
    transferOps := [op]
    header := { b.header with nameRegistryRoot := computeRegistryRoot registry } }

/-- A mint of `assetId`, outside any collection, by the key `sk`. -/
def mintOp (assetId : String) (sk : BitVec 256) (feePayment : Transaction crypto) :
    MintAssetOp crypto where
  assetId := assetId
  ownerPubkey := Commitment.new (P := crypto) 0 sk
  metadata := []
  feePayment := feePayment
  collectionId := none
  phaseIndex := none
  allowlistProof := none
  allowlistLeafIndex := none
  requiredKernelExcess := none
  signature := Signature.sign (P := crypto)
    (MintAssetOp.signingMessage (P := crypto) assetId [] none none none) sk 5
  creatorSignature := none

/-- A mint in the first phase of a collection, against the payment kernel `paid`, approved by the
creator's key. -/
def collectionMintOp (assetId collectionId : String) (sk creator : BitVec 256)
    (paid : Commitment crypto) (feePayment : Transaction crypto) : MintAssetOp crypto :=
  let owner := Commitment.new (P := crypto) 0 sk
  { mintOp assetId sk feePayment with
    collectionId := some collectionId
    phaseIndex := some 0
    requiredKernelExcess := some paid
    signature := Signature.sign (P := crypto)
      (MintAssetOp.signingMessage assetId [] (some collectionId) (some 0) (some paid)) sk 5
    creatorSignature := some (Signature.sign (P := crypto)
      (MintAssetOp.collectionApprovalSigningMessage assetId collectionId 0 paid owner) creator 5) }

/-- A transfer of `assetId` from the key `sk` to the key `sk'`, against the payment kernel `paid` if
one is given. -/
def assetTransferOp (assetId : String) (sk sk' : BitVec 256) (paid : Option (Commitment crypto)) :
    TransferAssetOp crypto :=
  let owner := Commitment.new (P := crypto) 0 sk'
  ⟨assetId, owner, paid, none,
    Signature.sign (P := crypto) (TransferAssetOp.signingMessage assetId owner paid none) sk 5⟩

/-- A collection with one open phase and a limit of `perWalletLimit`. -/
def launchOp (collectionId : String) (creator : BitVec 256) (perWalletLimit : UInt32) :
    LaunchCollectionOp crypto :=
  let owner := Commitment.new (P := crypto) 0 creator
  let phases : List MintPhase := [⟨"open", 0, 1, 0, perWalletLimit, none⟩]
  ⟨collectionId, owner, "", "", [], phases, 0, Signature.sign (P := crypto)
    (LaunchCollectionOp.signingMessage collectionId owner "" "" [] phases 0) creator 5⟩

/-- The next block with operations on assets, its header committed to the registries they lead to. -/
def mineAssets (s : ChainState crypto) (body : Transaction crypto)
    (launches : List (LaunchCollectionOp crypto)) (mints : List (MintAssetOp crypto))
    (transfers : List (TransferAssetOp crypto)) : Block crypto :=
  let b := draft s (genesisDefault crypto) body
  let collections := launches.foldl (fun m op => m.insert op.collectionId
    ⟨op.collectionId, op.creatorPubkey, op.name, op.symbol, op.metadata, op.phases, b.height,
      op.royaltyBps⟩) s.collectionRegistry
  let minted := mints.foldl (fun m op => m.insert op.assetId
    ⟨op.assetId, op.ownerPubkey, op.metadata, b.height, op.collectionId⟩) s.assetRegistry
  let assets := transfers.foldl (fun m op =>
    match m.lookup op.assetId with
    | some r => m.insert op.assetId { r with ownerPubkey := op.newOwnerPubkey }
    | none => m) minted
  sealBlock 42 { b with
    launchCollectionOps := launches
    mintOps := mints
    transferAssetOps := transfers
    header := { b.header with
      collectionRegistryRoot := computeCollectionRegistryRoot collections
      assetRegistryRoot := computeAssetRegistryRoot assets } }

/-- The bootstrap output registered as a stake. -/
def stakeOp : RegisterValidatorOp crypto :=
  ⟨genesisDefault crypto, genesisStake,
    Signature.sign (P := crypto) (stakeRegistrationMessage (genesisDefault crypto) genesisStake) 42 5⟩

/-- The next block with stake registrations; the header does not cover them. -/
def mineStakes (s : ChainState crypto) (body : Transaction crypto)
    (ops : List (RegisterValidatorOp crypto)) : Block crypto :=
  { mine s body with validatorOps := ops }

/-- Apply the blocks on a fresh node one after another. -/
def linear (bs : List (Block crypto)) : ChainState crypto :=
  ((ChainState.applyAll bs ChainState.new).map Prod.fst).getD ChainState.new

end Haze.Devnet
