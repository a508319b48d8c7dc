import Haze.Merkle
import Haze.Messages
import Haze.Wallet.Planner

/-!
# Notes (`crypto/src/note.rs`)

An output carries its index and value, encrypted under a key of its owner. Who restores a wallet, or looks
for the rewards of a stake, opens every note there is; the ones that open are of that key.

Commitments and notes travel as hex strings (`ScanEntry`). A note is decoded by slicing two bytes at a
time, so a string with a character of several bytes makes the decoder panic.
-/

namespace Haze

variable {P : Crypto}

/-! ## Hex

Two lowercase digits for each byte. An encoded text has no sign and no character of several bytes, so the
decoder neither panics on it nor reads it in another way. -/

/-- `{:02x}`, one digit. -/
def hexChar (n : ℕ) : Char :=
  if n < 10 then Char.ofNat (48 + n) else Char.ofNat (87 + n)

/-- `bytes.iter().map(|b| format!("{:02x}", b)).collect()`. -/
def hexEncode (bytes : List UInt8) : String :=
  String.ofList (bytes.flatMap fun b => [hexChar (b.toNat / 16), hexChar (b.toNat % 16)])

/-- `hex_decode`. -/
def hexDecode (hex : String) : Except Panic (Option (List UInt8)) :=
  if (asBytes hex).length % 2 ≠ 0 then .ok none else hexBytes (asBytes hex)

/-- `Commitment::to_hex`. -/
def Commitment.toHex (c : Commitment P) : String :=
  hexEncode c.toBytes

-- the byte of a digit
def hexByte (n : ℕ) : UInt8 :=
  if n < 10 then UInt8.ofNat (48 + n) else UInt8.ofNat (87 + n)

/-- A digit is one byte, which starts a character, is no sign and parses back. -/
theorem hexByte_spec : ∀ n : Fin 16, String.utf8EncodeChar (hexChar n) = [hexByte n] ∧
    isContinuation (hexByte n) = false ∧ hexByte n ≠ 43 ∧ hexDigit (hexByte n) = some (UInt8.ofNat n) := by
  decide +kernel

section Pair

variable (b : UInt8)

theorem hexByte_hi_spec : String.utf8EncodeChar (hexChar (b.toNat / 16)) = [hexByte (b.toNat / 16)] ∧
    isContinuation (hexByte (b.toNat / 16)) = false ∧ hexByte (b.toNat / 16) ≠ 43 ∧
    hexDigit (hexByte (b.toNat / 16)) = some (UInt8.ofNat (b.toNat / 16)) := by
  have hlt := b.toNat_lt
  exact hexByte_spec ⟨b.toNat / 16, by omega⟩

theorem hexByte_lo_spec : String.utf8EncodeChar (hexChar (b.toNat % 16)) = [hexByte (b.toNat % 16)] ∧
    isContinuation (hexByte (b.toNat % 16)) = false ∧ hexByte (b.toNat % 16) ≠ 43 ∧
    hexDigit (hexByte (b.toNat % 16)) = some (UInt8.ofNat (b.toNat % 16)) :=
  hexByte_spec ⟨b.toNat % 16, Nat.mod_lt _ (by decide)⟩

theorem u8FromStrRadix_hexByte :
    u8FromStrRadix (hexByte (b.toNat / 16)) (hexByte (b.toNat % 16)) = some b := by
  obtain ⟨-, -, hsign, hhi⟩ := hexByte_hi_spec b
  obtain ⟨-, -, -, hlo⟩ := hexByte_lo_spec b
  have hb : 16 * UInt8.ofNat (b.toNat / 16) + UInt8.ofNat (b.toNat % 16) = b := by
    have hlt := b.toNat_lt
    apply UInt8.toNat_inj.mp
    rw [UInt8.toNat_add, UInt8.toNat_mul, UInt8.toNat_ofNat', UInt8.toNat_ofNat']
    show (16 * (b.toNat / 16 % 256) % 256 + b.toNat % 16 % 256) % 256 = b.toNat
    omega
  rw [u8FromStrRadix, if_neg hsign, hhi, hlo]
  exact congrArg some hb

end Pair

theorem asBytes_hexEncode (bytes : List UInt8) :
    asBytes (hexEncode bytes) =
      bytes.flatMap fun b => [hexByte (b.toNat / 16), hexByte (b.toNat % 16)] := by
  rw [asBytes_eq_flatMap, hexEncode, String.toList_ofList]
  induction bytes with
  | nil => rfl
  | cons b bytes ih =>
      rw [List.flatMap_cons, List.flatMap_append, ih, List.flatMap_cons, List.flatMap_cons,
        List.flatMap_nil, (hexByte_hi_spec b).1, (hexByte_lo_spec b).1, List.flatMap_cons]
      rfl

theorem hexBytes_hexPairs (bytes : List UInt8) :
    hexBytes (bytes.flatMap fun b => [hexByte (b.toNat / 16), hexByte (b.toNat % 16)]) =
      .ok (some bytes) := by
  induction bytes with
  | nil => rfl
  | cons b bytes ih =>
      have hnext : (bytes.flatMap fun b => [hexByte (b.toNat / 16), hexByte (b.toNat % 16)]).head?.any
          isContinuation = false := by
        cases bytes with
        | nil => rfl
        | cons b' bytes => exact (hexByte_hi_spec b').2.1
      rw [List.flatMap_cons, List.cons_append, List.cons_append, List.nil_append, hexBytes,
        (hexByte_hi_spec b).2.1, hnext, u8FromStrRadix_hexByte, ih]
      rfl

/-- Decoding undoes encoding. -/
theorem hexDecode_hexEncode (bytes : List UInt8) : hexDecode (hexEncode bytes) = .ok (some bytes) := by
  have heven : (asBytes (hexEncode bytes)).length % 2 = 0 := by
    rw [asBytes_hexEncode]
    induction bytes with
    | nil => rfl
    | cons b bytes ih => grind
  rw [hexDecode, if_neg (by omega), asBytes_hexEncode]
  exact hexBytes_hexPairs bytes

theorem Commitment.toHex_injective : Function.Injective (Commitment.toHex (P := P)) := by
  intro c c' h
  have hbytes : c.toBytes = c'.toBytes := by
    have hdecode := congrArg hexDecode h
    rw [toHex, toHex, hexDecode_hexEncode, hexDecode_hexEncode] at hdecode
    exact Option.some.inj (Except.ok.inj hdecode)
  exact Commitment.toBytes_injective hbytes

/-! ## Little-endian integers

The index is written in four bytes and the value in eight. Reading a number back is exact as long as it fits
its width. -/

/-- `from_le_bytes`. -/
def fromLeBytes : List UInt8 → ℕ
  | [] => 0
  | b :: rest => b.toNat + 256 * fromLeBytes rest

theorem fromLeBytes_toLeBytes (width n : ℕ) : fromLeBytes (toLeBytes width n) = n % 256 ^ width := by
  induction width generalizing n with
  | zero => simp [toLeBytes, fromLeBytes, Nat.mod_one]
  | succ width ih =>
      rw [toLeBytes, fromLeBytes, ih, UInt8.toNat_ofNat']
      show n % 256 + 256 * _ = _
      rw [show (256 : ℕ) ^ (width + 1) = 256 * 256 ^ width from Nat.pow_succ', Nat.mod_mul]

theorem toLeBytes_fromLeBytes (bytes : List UInt8) :
    toLeBytes bytes.length (fromLeBytes bytes) = bytes := by
  induction bytes with
  | nil => rfl
  | cons b rest ih =>
      have hb : UInt8.ofNat (b.toNat + 256 * fromLeBytes rest) = b := by
        apply UInt8.toNat_inj.mp
        have hlt := b.toNat_lt
        rw [UInt8.toNat_ofNat']
        omega
      have hrest : (b.toNat + 256 * fromLeBytes rest) / 256 = fromLeBytes rest := by
        have hlt := b.toNat_lt
        omega
      rw [List.length_cons, fromLeBytes, toLeBytes, hb, hrest, ih]

theorem fromLeBytes_lt (bytes : List UInt8) : fromLeBytes bytes < 256 ^ bytes.length := by
  induction bytes with
  | nil => simp [fromLeBytes]
  | cons b rest ih =>
      have hlt := b.toNat_lt
      rw [fromLeBytes, List.length_cons, Nat.pow_succ']
      omega

/-! ## Sealing and opening

A note is a nonce of 12 bytes and a ciphertext of 28: four bytes of index, eight of value and the tag. The
cipher is known by one law, from which it follows that a note opens under the key that sealed it and gives
what was sealed. -/

/-- With the inverse of the encryption. -/
structure NoteCrypto (P : Crypto) extends WalletCrypto P where
  /-- `ChaCha20Poly1305::decrypt`, by key, nonce and ciphertext. -/
  decrypt : Bytes32 → List.Vector UInt8 12 → List UInt8 → Option (List UInt8)
  /-- What decrypts is the encryption of what comes out: the cipher is a key stream, and the tag is a
  function of key, nonce and ciphertext. -/
  decrypt_eq_some_iff : ∀ key nonce ciphertext plaintext,
    decrypt key nonce ciphertext = some plaintext ↔ ciphertext = encrypt key nonce plaintext

variable {N : NoteCrypto P}

/-- `&note[..12]`. -/
def nonceOf (note : List UInt8) (h : ¬note.length < 12) : List.Vector UInt8 12 :=
  ⟨note.take 12, List.length_take_of_le (Nat.le_of_not_lt h)⟩

/-- `note::open`: the index and the value of a note of this key. -/
def openNote (N : NoteCrypto P) (noteKey : Bytes32) (note : List UInt8) : Option (UInt32 × UInt64) :=
  if h : note.length < 12 then none
  else
    match N.decrypt noteKey (nonceOf note h) (note.drop 12) with
    | none => none
    | some plaintext =>
        if plaintext.length ≠ 12 then none
        else some (UInt32.ofNat (fromLeBytes (plaintext.take 4)),
          UInt64.ofNat (fromLeBytes (plaintext.drop 4)))

/-- The plaintext of a note is its index and its value. -/
theorem plaintext_eq {plaintext : List UInt8} (hlength : plaintext.length = 12) :
    toLeBytes 4 (UInt32.ofNat (fromLeBytes (plaintext.take 4))).toNat ++
      toLeBytes 8 (UInt64.ofNat (fromLeBytes (plaintext.drop 4))).toNat = plaintext := by
  have htake : (plaintext.take 4).length = 4 := by grind
  have hdrop : (plaintext.drop 4).length = 8 := by grind
  have hindex : fromLeBytes (plaintext.take 4) < 2 ^ 32 := by
    simpa [htake] using fromLeBytes_lt (plaintext.take 4)
  have hvalue : fromLeBytes (plaintext.drop 4) < 2 ^ 64 := by
    simpa [hdrop] using fromLeBytes_lt (plaintext.drop 4)
  have hindex' := toLeBytes_fromLeBytes (plaintext.take 4)
  have hvalue' := toLeBytes_fromLeBytes (plaintext.drop 4)
  rw [htake] at hindex'
  rw [hdrop] at hvalue'
  rw [UInt32.toNat_ofNat', UInt64.toNat_ofNat', Nat.mod_eq_of_lt hindex, Nat.mod_eq_of_lt hvalue,
    hindex', hvalue', List.take_append_drop]

/-- **A note opens to what was sealed in it, under the key it was sealed with.** -/
theorem openNote_eq_some_iff {noteKey : Bytes32} {note : List UInt8} {index : UInt32}
    {value : UInt64} :
    openNote N noteKey note = some (index, value) ↔
      ∃ nonce, note = sealNote N.toWalletCrypto noteKey nonce index value := by
  constructor
  · intro h
    unfold openNote at h
    split at h
    · cases h
    next hshort =>
      split at h
      · cases h
      next plaintext hdecrypt =>
        split at h
        · cases h
        next hlength =>
          obtain ⟨rfl, rfl⟩ := Prod.mk.inj (Option.some.inj h)
          -- a note that opens is what sealing would have made of its contents, under its own nonce
          refine ⟨nonceOf note hshort, ?_⟩
          have hnonce : (nonceOf note hshort).toList = note.take 12 := rfl
          rw [sealNote, plaintext_eq (not_not.mp hlength), ← (N.decrypt_eq_some_iff _ _ _ _).mp hdecrypt,
            hnonce, List.take_append_drop]
  -- the nonce is cut off at the byte where sealing has put it
  · rintro ⟨nonce, rfl⟩
    have hnonce : nonce.toList.length = 12 := nonce.2
    have hindex : fromLeBytes (toLeBytes 4 index.toNat) = index.toNat := by
      rw [fromLeBytes_toLeBytes]
      exact Nat.mod_eq_of_lt index.toNat_lt
    have hvalue : fromLeBytes (toLeBytes 8 value.toNat) = value.toNat := by
      rw [fromLeBytes_toLeBytes]
      exact Nat.mod_eq_of_lt value.toNat_lt
    have htake : (sealNote N.toWalletCrypto noteKey nonce index value).take 12 = nonce.toList :=
      List.take_left' hnonce
    have hdrop : (sealNote N.toWalletCrypto noteKey nonce index value).drop 12 =
        N.encrypt noteKey nonce (toLeBytes 4 index.toNat ++ toLeBytes 8 value.toNat) :=
      List.drop_left' hnonce
    generalize hnote : sealNote N.toWalletCrypto noteKey nonce index value = note at htake hdrop ⊢
    have hlength : ¬note.length < 12 := by
      have h := congrArg List.length htake
      rw [List.length_take, hnonce] at h
      omega
    have hsame : nonceOf note hlength = nonce := Subtype.ext htake
    have hdecrypt := (N.decrypt_eq_some_iff noteKey nonce _ _).mpr hdrop
    rw [openNote, dif_neg hlength, hsame, hdecrypt]
    dsimp only
    rw [if_neg (by simp [Devnet.length_toLeBytes]), List.take_left' (Devnet.length_toLeBytes _ _),
      List.drop_left' (Devnet.length_toLeBytes _ _), hindex, hvalue, UInt32.ofNat_toNat, UInt64.ofNat_toNat]

/-! ## Scanning

A scan reads two strings for each output. An output counts as the wallet's own only if its commitment comes
out again from what the note says, so that nobody can slip in an output of another value. -/

structure ScanEntry where
  commitmentHex : String
  noteHex : String
  deriving DecidableEq

/-- How an output is served to a scan. -/
def Output.scanEntry (o : Output P) : ScanEntry :=
  ⟨o.commitment.toHex, hexEncode o.note⟩

namespace ScanEntry

/-- How both scans begin: an entry whose note is no hex, or not of this key, is passed over. -/
def opened (N : NoteCrypto P) (noteKey : Bytes32) (entry : ScanEntry) :
    Except Panic (Option (UInt32 × UInt64)) :=
  match hexDecode entry.noteHex with
  | .error e => .error e
  | .ok none => .ok none
  | .ok (some note) => .ok (openNote N noteKey note)

/-- Decoding the note does not panic. -/
def Decodes (entry : ScanEntry) : Prop :=
  ∃ note, hexDecode entry.noteHex = .ok note

/-- The entry is of an output of this key: its note holds an index and a value, and its commitment is to
that value, under the blinding factor of that index. -/
structure Holds (N : NoteCrypto P) (noteKey : Bytes32) (blinding : UInt32 → P.Scalar)
    (entry : ScanEntry) (index : UInt32) (value : UInt64) : Prop where
  sealed : ∃ nonce,
    hexDecode entry.noteHex = .ok (some (sealNote N.toWalletCrypto noteKey nonce index value))
  commits : entry.commitmentHex = (Commitment.new value (blinding index)).toHex

variable {noteKey : Bytes32} {blinding : UInt32 → P.Scalar} {entry : ScanEntry} {index : UInt32}
  {value : UInt64}

theorem exists_opened_iff (N : NoteCrypto P) (noteKey : Bytes32) :
    (∃ r, entry.opened N noteKey = .ok r) ↔ entry.Decodes := by
  unfold opened Decodes
  cases hexDecode entry.noteHex with
  | error e => simp
  | ok note =>
      cases note with
      | none => simp
      | some note => simp

theorem opened_eq_some_iff : entry.opened N noteKey = .ok (some (index, value)) ↔
    ∃ nonce, hexDecode entry.noteHex =
      .ok (some (sealNote N.toWalletCrypto noteKey nonce index value)) := by
  unfold opened
  constructor
  · intro h
    split at h
    · cases h
    · cases h
    next note hnote =>
      obtain ⟨nonce, rfl⟩ := openNote_eq_some_iff.mp (Except.ok.inj h)
      exact ⟨nonce, hnote⟩
  · rintro ⟨nonce, hnote⟩
    rw [hnote]
    exact congrArg Except.ok (openNote_eq_some_iff.mpr ⟨nonce, rfl⟩)

theorem holds_iff : entry.Holds N noteKey blinding index value ↔
    entry.opened N noteKey = .ok (some (index, value)) ∧
      (Commitment.new value (blinding index)).toHex = entry.commitmentHex := by
  rw [opened_eq_some_iff]
  exact ⟨fun ⟨hsealed, hcommits⟩ => ⟨hsealed, hcommits.symm⟩,
    fun ⟨hsealed, hcommits⟩ => ⟨hsealed, hcommits.symm⟩⟩

/-- What an entry of this key holds. -/
def owned (N : NoteCrypto P) (noteKey : Bytes32) (blinding : UInt32 → P.Scalar) (entry : ScanEntry) :
    Option (UInt32 × UInt64) :=
  match entry.opened N noteKey with
  | .ok (some (index, value)) =>
      if (Commitment.new value (blinding index)).toHex = entry.commitmentHex then some (index, value)
      else none
  | _ => none

theorem owned_eq_some_iff :
    entry.owned N noteKey blinding = some (index, value) ↔ entry.Holds N noteKey blinding index value := by
  rw [holds_iff]
  unfold owned
  split
  next index' value' hopened =>
    constructor
    · intro h
      split at h
      next hcommits =>
        cases h
        exact ⟨hopened, hcommits⟩
      · cases h
    · rintro ⟨hopened', hcommits⟩
      cases hopened.symm.trans hopened'
      exact if_pos hcommits
  next hnone =>
    constructor
    · intro h
      cases h
    · rintro ⟨hopened, -⟩
      exact absurd hopened (hnone _ _)

/-- What an entry of this key holds, if it is unspent. -/
def ownedUnspent (N : NoteCrypto P) (noteKey : Bytes32) (blinding : UInt32 → P.Scalar)
    (utxoSet : List String) (entry : ScanEntry) : Option (UInt32 × UInt64) :=
  if entry.commitmentHex ∈ utxoSet then entry.owned N noteKey blinding else none

theorem ownedUnspent_eq_some_iff {utxoSet : List String} :
    entry.ownedUnspent N noteKey blinding utxoSet = some (index, value) ↔
      entry.commitmentHex ∈ utxoSet ∧ entry.Holds N noteKey blinding index value := by
  rw [ownedUnspent, ← owned_eq_some_iff]
  by_cases hunspent : entry.commitmentHex ∈ utxoSet
  · rw [if_pos hunspent, and_iff_right hunspent]
  · rw [if_neg hunspent]
    constructor
    · intro h
      cases h
    · rintro ⟨h, -⟩
      exact absurd h hunspent

/-- The commitments of what is found are those of the entries. -/
theorem hex_of_ownedUnspent {utxoSet : List String} {found : UInt32 × UInt64}
    (h : entry.ownedUnspent N noteKey blinding utxoSet = some found) :
    (Commitment.new found.2 (blinding found.1)).toHex = entry.commitmentHex :=
  (ownedUnspent_eq_some_iff.mp h).2.commits.symm

end ScanEntry

/-- What the key's owner makes is found by a scan. -/
theorem holds_makeOutput (coins : OutputCoins N.toWalletCrypto) (noteKey : Bytes32)
    (blinding : UInt32 → P.Scalar) (index : UInt32) (value : UInt64) :
    (makeOutput N.toWalletCrypto coins noteKey index value (blinding index)).scanEntry.Holds N noteKey
      blinding index value :=
  ⟨⟨coins.note, hexDecode_hexEncode _⟩, rfl⟩

/-! ## The keys of a stake

The reward of a block is derived from the key of the stake and the height. The operator of the stake finds
it again with the same two, and nobody else can tell the rewards apart. -/

/-- `note::coinbase_blinding`. -/
def coinbaseBlinding (W : WalletCrypto P) (stakeKey : P.Scalar) (height : UInt64) : P.Scalar :=
  W.fromBytesModOrderWide (W.sha512 (asBytes "Haze Coinbase Blinding" ++
    (P.scalarBytes stakeKey).toList ++ toLeBytes 8 height.toNat))

/-- `note::coinbase_note_key`. -/
def coinbaseNoteKey (W : WalletCrypto P) (stakeKey : P.Scalar) : Bytes32 :=
  (W.sha512 (asBytes "Haze Coinbase Note Key" ++ (P.scalarBytes stakeKey).toList)).take 32

/-! ## The devnet's notes

A cipher that hides nothing but obeys the law: the plaintext, then the key as a tag. A note opens under a
key exactly if the tag is that key's. -/

namespace Devnet

-- the tag of a note shows its key
def tag (key : Bytes32) : List UInt8 := key.toList.take 16

theorem length_tag (key : Bytes32) : (tag key).length = 16 := by
  rw [tag, List.length_take, List.Vector.toList_length]
  rfl

/-- The devnet's wallet, with a tag that depends on the key. -/
def noteCrypto : NoteCrypto crypto where
  toWalletCrypto :=
    { wallet with
      encrypt := fun key _ plaintext => plaintext ++ tag key
      length_encrypt := by
        intro key _ plaintext
        rw [List.length_append, length_tag] }
  decrypt key _ ciphertext :=
    if ciphertext.drop (ciphertext.length - 16) = tag key then
      some (ciphertext.take (ciphertext.length - 16))
    else none
  decrypt_eq_some_iff := by
    intro key _ ciphertext plaintext
    constructor
    · intro h
      split at h
      next htag =>
        cases h
        show ciphertext = ciphertext.take _ ++ tag key
        rw [← htag, List.take_append_drop]
      · cases h
    · rintro rfl
      have hlength : (plaintext ++ tag key).length - 16 = plaintext.length := by
        rw [List.length_append, length_tag, Nat.add_sub_cancel]
      show (if (plaintext ++ tag key).drop ((plaintext ++ tag key).length - 16) = tag key then
        some ((plaintext ++ tag key).take ((plaintext ++ tag key).length - 16)) else none) = _
      rw [hlength, List.drop_left, List.take_left, if_pos rfl]

end Devnet

end Haze
