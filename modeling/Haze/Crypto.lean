import Mathlib.Algebra.Module.Defs
import Mathlib.Data.Vector.Defs

/-!
# Cryptographic primitives (`crypto/src/`)

The node links `curve25519_dalek_ng`, `bulletproofs`, `merlin`, `sha2` and `bincode`. None of them is
part of the repository, so they are collected in one structure, `Crypto`, and everything above is
parametric in it: points form an abelian group on which scalars act, compression can be undone, and
the Fiat–Shamir challenge, the range-proof verifier, SHA-256 and the binary encoder are arbitrary
functions. What the repository builds from them — Pedersen commitments and Schnorr signatures — is
translated from `pedersen.rs` and `schnorr.rs`.
-/

namespace Haze

/-- `[u8; 32]`. -/
abbrev Bytes32 := List.Vector UInt8 32

/-- `[0u8; 32]`, which the chain uses as "no block". -/
def zeroHash : Bytes32 := List.Vector.replicate 32 0

/-- `to_le_bytes` of an unsigned integer of `width` bytes. -/
def toLeBytes : ℕ → ℕ → List UInt8
  | 0, _ => []
  | width + 1, n => UInt8.ofNat n :: toLeBytes width (n / 256)

/-- `str::as_bytes`. -/
def asBytes (s : String) : List UInt8 :=
  s.toByteArray.data.toList

/-- The ways a modelled function can panic. -/
inductive Panic where
  /-- A `str` was sliced inside a character. -/
  | charBoundary
  deriving DecidableEq

def hexDigit (b : UInt8) : Option UInt8 :=
  if 48 ≤ b ∧ b ≤ 57 then some (b - 48)
  else if 97 ≤ b ∧ b ≤ 102 then some (b - 87)
  else if 65 ≤ b ∧ b ≤ 70 then some (b - 55)
  else none

/-- `u8::from_str_radix(pair, 16)` on two bytes. A leading `+` is a sign, not a digit. -/
def u8FromStrRadix (hi lo : UInt8) : Option UInt8 :=
  if hi = 43 then hexDigit lo
  else do return 16 * (← hexDigit hi) + (← hexDigit lo)

-- a byte that does not start a character
def isContinuation (b : UInt8) : Bool := 128 ≤ b && b < 192

/-- The decoding loop of `from_hex`: slice two bytes, parse them, stop at the first pair that does
not parse. -/
def hexBytes : List UInt8 → Except Panic (Option (List UInt8))
  | hi :: lo :: rest =>
      if isContinuation hi || rest.head?.any isContinuation then .error .charBoundary
      else
        match u8FromStrRadix hi lo with
        | none => .ok none
        | some b => return (← hexBytes rest).map (b :: ·)
  | _ => .ok (some [])

/-- The part of serde's data model that the repository's `derive(Serialize)` records reach. -/
inductive Serde where
  | u16 (n : UInt16)
  | u32 (n : UInt32)
  | u64 (n : UInt64)
  | str (s : String)
  /-- `serialize_bytes`. -/
  | bytes (bs : List UInt8)
  /-- A fixed-size array `[u8; 32]`. -/
  | array (bs : Bytes32)
  /-- `Vec<u8>`, which serde treats as a sequence of integers. -/
  | byteSeq (bs : List UInt8)
  | option (v : Option Serde)
  | seq (vs : List Serde)
  | struct (fields : List Serde)

/-- What the node takes from its dependencies and its environment. -/
structure Crypto where
  Scalar : Type
  /-- `RistrettoPoint`. -/
  Point : Type
  /-- `bulletproofs::RangeProof`. -/
  RangeProof : Type
  [scalarRing : CommRing Scalar]
  [scalarEq : DecidableEq Scalar]
  [pointGroup : AddCommGroup Point]
  [pointEq : DecidableEq Point]
  [pointModule : Module Scalar Point]
  /-- `PedersenGens::default().B`, the generator that carries values. -/
  B : Point
  /-- `PedersenGens::default().B_blinding`, the generator that carries blinding factors. -/
  BBlinding : Point
  /-- `Scalar::as_bytes`. -/
  scalarBytes : Scalar → Bytes32
  /-- `RistrettoPoint::compress`. -/
  compress : Point → Bytes32
  /-- `CompressedRistretto::decompress`. -/
  decompress : Bytes32 → Option Point
  /-- The challenge of the transcript `"Haze Schnorr Signature"` after the message, the compressed
  public key and the compressed nonce, reduced to a scalar. -/
  challenge : List UInt8 → Bytes32 → Bytes32 → Scalar
  /-- `verify_single` of the transcript `"Haze Range Proof"` over 64 bits. -/
  verifyRange : RangeProof → Bytes32 → Bool
  sha256 : List UInt8 → Bytes32
  /-- `bincode::serialize`. -/
  bincode : Serde → List UInt8
  /-- `genesis_validator_blinding()`: the value of `HAZE_GENESIS_VALIDATOR_BLINDING`, 42 when it is
  not set. -/
  genesisValidatorBlinding : Scalar
  decompress_compress : ∀ p, decompress (compress p) = some p

attribute [instance] Crypto.scalarRing Crypto.scalarEq Crypto.pointGroup Crypto.pointEq
  Crypto.pointModule

variable {P : Crypto}

/-! ## Pedersen commitments (`pedersen.rs`)

A commitment is kept as the point it stands for. Two commitments are equal when their compressed bytes are,
which determine the point. -/

/-- `Commitment(pub RistrettoPoint)`. -/
@[ext] structure Commitment (P : Crypto) where
  asPoint : P.Point
  deriving DecidableEq

instance : LawfulBEq (Commitment P) := inferInstance

namespace Commitment

/-- `Commitment::new`: `value * B + blinding * B_blinding`. -/
def new (value : UInt64) (blinding : P.Scalar) : Commitment P :=
  ⟨(value.toNat : P.Scalar) • P.B + blinding • P.BBlinding⟩

/-- The compressed bytes, as every signing message and the header hash embed them. -/
def toBytes (c : Commitment P) : List UInt8 :=
  (P.compress c.asPoint).toList

/-- `Commitment::from_compressed_bytes`. -/
def fromCompressedBytes (bytes : List UInt8) : Option (Commitment P) :=
  if h : bytes.length = 32 then
    (P.decompress ⟨bytes, h⟩).map Commitment.mk
  else
    none

/-- `Commitment::from_hex`: the length is checked in bytes, then each pair of bytes is sliced off and
parsed, so a multi-byte character can put a slice boundary inside itself. -/
def fromHex (hex : String) : Except Panic (Option (Commitment P)) :=
  if (asBytes hex).length ≠ 64 then .ok none
  else return (← hexBytes (asBytes hex)).bind fromCompressedBytes

@[simp] theorem new_zero_blinding (value : UInt64) :
    (new value (0 : P.Scalar)).asPoint = (value.toNat : P.Scalar) • P.B := by
  simp [new]

end Commitment

/-! ## Schnorr signatures (`schnorr.rs`)

The verifier recomputes the nonce point from the response and the challenge. That a signature verifies under
its own key is linear algebra on points; nothing is proved about forgeries. -/

@[ext] structure Signature (P : Crypto) where
  s : P.Scalar
  e : P.Scalar
  deriving DecidableEq

namespace Signature

/-- `Signature { s: Scalar::zero(), e: Scalar::zero() }`, the placeholder a header is signed with. -/
def zero : Signature P := ⟨0, 0⟩

/-- `Signature::sign`, with the nonce the source draws from `OsRng` as an argument. -/
def sign (message : List UInt8) (secretKey nonce : P.Scalar) : Signature P :=
  let publicKey := secretKey • P.BBlinding
  let e := P.challenge message (P.compress publicKey) (P.compress (nonce • P.BBlinding))
  ⟨nonce + e * secretKey, e⟩

/-- `Signature::verify`. -/
def verify (sig : Signature P) (message : List UInt8) (publicKey : Commitment P) : Bool :=
  let pk := publicKey.asPoint
  let r := sig.s • P.BBlinding - sig.e • pk
  sig.e = P.challenge message (P.compress pk) (P.compress r)

/-- A signature made with the key's secret verifies. -/
theorem verify_sign (message : List UInt8) (secretKey nonce : P.Scalar) :
    (sign message secretKey nonce).verify message ⟨secretKey • P.BBlinding⟩ = true := by
  have hr : (sign message secretKey nonce).s • P.BBlinding
      - (sign message secretKey nonce).e • secretKey • P.BBlinding = nonce • P.BBlinding := by
    simp only [sign, add_smul, mul_smul, add_sub_cancel_right]
  simp only [verify, hr]
  simp [sign]

end Signature

/-! ## Range proofs (`range_proof.rs`)

The verifier is a parameter. What the chain needs of it is said where it is used. -/

/-- `RangeProof::verify`. -/
def verifyRangeProof (proof : P.RangeProof) (commitment : Commitment P) : Bool :=
  P.verifyRange proof (P.compress commitment.asPoint)

end Haze
