import Haze.Wallet.Notes

/-!
# What the hex decoders accept

`Commitment::from_hex`, `Signature::from_hex` and the wallet's `hex_decode` check the length in bytes and
then slice two bytes at a time for `u8::from_str_radix`. A slice that ends inside a character panics, and
the parser takes a leading `+`. Other decoders of the repository (the explorer's search, the treasury
secret, the genesis secret) ask first that every character is a hexadecimal digit; these three do not.

The text is read here as characters: a run of pairs that parse (`Spells`), and what stops it.
-/

namespace Haze

variable {P : Crypto} {α : Type}

/-! ## Signatures

A signature is two scalars of 32 bytes. Whether 32 bytes are a scalar is for the curve's library to say; all
that is used is that the bytes of a canonical scalar give it back. -/

/-- What `Signature::from_hex` takes from `curve25519_dalek_ng`. -/
structure ScalarCodec (P : Crypto) where
  /-- `Scalar::from_canonical_bytes`. -/
  fromCanonicalBytes : Bytes32 → Option P.Scalar
  /-- `Scalar::is_canonical`: the bytes are those of the representative below the group order. -/
  IsCanonical : P.Scalar → Prop
  fromCanonicalBytes_scalarBytes : ∀ x, IsCanonical x → fromCanonicalBytes (P.scalarBytes x) = some x

namespace Signature

/-- `Signature::to_hex`: `s`, then `e`. -/
def toHex (sig : Signature P) : String :=
  hexEncode ((P.scalarBytes sig.s).toList ++ (P.scalarBytes sig.e).toList)

-- the end of `from_hex`, on its 64 bytes
def fromScalarBytes (S : ScalarCodec P) (bytes : List UInt8) : Option (Signature P) :=
  if h : bytes.length = 64 then do
    let s ← S.fromCanonicalBytes ⟨bytes.take 32, by rw [List.length_take, h]; rfl⟩
    let e ← S.fromCanonicalBytes ⟨bytes.drop 32, by rw [List.length_drop, h]⟩
    return ⟨s, e⟩
  else none

/-- `Signature::from_hex`. -/
def fromHex (S : ScalarCodec P) (hex : String) : Except Panic (Option (Signature P)) :=
  if (asBytes hex).length ≠ 128 then .ok none
  else return (← hexBytes (asBytes hex)).bind (fromScalarBytes S)

end Signature

/-! ## Characters and bytes

The length that the decoders check is in bytes, and so are the slices, while the condition is about
characters. Only in a text of one-byte characters do the two agree. -/

/-- `char::is_ascii_hexdigit`. -/
def isAsciiHexdigit (c : Char) : Bool :=
  '0' ≤ c && c ≤ '9' || 'a' ≤ c && c ≤ 'f' || 'A' ≤ c && c ≤ 'F'

/-- The bytes of a text. -/
def encoded (cs : List Char) : List UInt8 :=
  cs.flatMap String.utf8EncodeChar

@[simp] theorem encoded_nil : encoded [] = [] := rfl

theorem encoded_cons (c : Char) (cs : List Char) :
    encoded (c :: cs) = String.utf8EncodeChar c ++ encoded cs := rfl

/-- The bytes of a long character: `10xxxxxx` continues it, the others start it and are no digits. -/
theorem isContinuation_or (x : UInt8) : isContinuation (x &&& 0x3f ||| 0x80) = true ∧
    isContinuation (x &&& 0x1f ||| 0xc0) = false ∧ isContinuation (x &&& 0x0f ||| 0xe0) = false ∧
    isContinuation (x &&& 0x07 ||| 0xf0) = false ∧ x &&& 0x1f ||| 0xc0 ≠ 43 ∧
    hexDigit (x &&& 0x1f ||| 0xc0) = none := by
  have hall : ∀ n : Fin 256, isContinuation (UInt8.ofNat n &&& 0x3f ||| 0x80) = true ∧
      isContinuation (UInt8.ofNat n &&& 0x1f ||| 0xc0) = false ∧
      isContinuation (UInt8.ofNat n &&& 0x0f ||| 0xe0) = false ∧
      isContinuation (UInt8.ofNat n &&& 0x07 ||| 0xf0) = false ∧ UInt8.ofNat n &&& 0x1f ||| 0xc0 ≠ 43 ∧
      hexDigit (UInt8.ofNat n &&& 0x1f ||| 0xc0) = none := by
    decide +kernel
  have hx := hall ⟨x.toNat, x.toNat_lt⟩
  rwa [UInt8.ofNat_toNat] at hx

theorem toNat_toUInt8_of_size_one {c : Char} (h : c.utf8Size = 1) :
    c.toNat ≤ 127 ∧ c.val.toUInt8.toNat = c.toNat := by
  rw [Char.utf8Size_eq_one_iff, UInt32.le_iff_toNat_le] at h
  refine ⟨h, ?_⟩
  rw [UInt32.toNat_toUInt8]
  apply Nat.mod_eq_of_lt
  exact Nat.lt_of_le_of_lt h (by decide)

/-- A character of one byte is no continuation. -/
theorem isContinuation_of_size_one {c : Char} (h : c.utf8Size = 1) :
    isContinuation c.val.toUInt8 = false := by
  obtain ⟨hle, hval⟩ := toNat_toUInt8_of_size_one h
  have hlow : ¬ 128 ≤ c.val.toUInt8 := by
    rw [UInt8.le_iff_toNat_le, hval]
    show ¬ 128 ≤ c.toNat
    omega
  rw [isContinuation, decide_eq_false hlow, Bool.false_and]

/-- The first byte of a character starts it, the others continue it. -/
theorem utf8EncodeChar_spec (c : Char) : ∃ b rest, String.utf8EncodeChar c = b :: rest ∧
    rest.length + 1 = c.utf8Size ∧ isContinuation b = false ∧ ∀ x ∈ rest, isContinuation x = true := by
  have hcont : ∀ x : UInt8, isContinuation (x &&& 0x3f ||| 0x80) = true :=
    fun x => (isContinuation_or x).1
  have hpos := c.utf8Size_pos
  have hle := c.utf8Size_le_four
  obtain h | h | h | h : c.utf8Size = 1 ∨ c.utf8Size = 2 ∨ c.utf8Size = 3 ∨ c.utf8Size = 4 := by omega
  · exact ⟨_, [], String.utf8EncodeChar_eq_singleton h, h.symm, isContinuation_of_size_one h, by simp⟩
  · refine ⟨_, _, String.utf8EncodeChar_eq_cons_cons h, h.symm, (isContinuation_or _).2.1, ?_⟩
    simp [hcont]
  · refine ⟨_, _, String.utf8EncodeChar_eq_cons_cons_cons h, h.symm, (isContinuation_or _).2.2.1, ?_⟩
    simp [hcont]
  · refine ⟨_, _, String.utf8EncodeChar_eq_cons_cons_cons_cons h, h.symm, (isContinuation_or _).2.2.2.1, ?_⟩
    simp [hcont]

theorem head_encoded (cs : List Char) : (encoded cs).head?.any isContinuation = false := by
  cases cs with
  | nil => rfl
  | cons c cs =>
      obtain ⟨b, rest, henc, -, hb, -⟩ := utf8EncodeChar_spec c
      rw [encoded_cons, henc]
      exact hb

/-! ## Pairs that parse

The loop goes over the text pair by pair. It ends in one of three ways: the text is used up, a pair does not
parse, or a slice ends inside a character; the last is a panic. -/

/-- The text is a run of pairs that parse, to these bytes. -/
inductive Spells : List Char → List UInt8 → Prop
  | nil : Spells [] []
  | cons {c d : Char} {b : UInt8} {rest : List Char} {bytes : List UInt8} (hc : c.utf8Size = 1)
      (hd : d.utf8Size = 1) (hparse : u8FromStrRadix c.val.toUInt8 d.val.toUInt8 = some b)
      (hrest : Spells rest bytes) : Spells (c :: d :: rest) (b :: bytes)

/-- Behind a run of pairs that parse, the next two bytes end inside a character. -/
def CutsCharacter (cs : List Char) : Prop :=
  ∃ run bytes c rest, cs = run ++ c :: rest ∧ Spells run bytes ∧
    (2 < c.utf8Size ∨ c.utf8Size = 1 ∧ ∃ d ∈ rest.head?, 1 < d.utf8Size)

/-- Two characters of one byte each are one slice. -/
theorem hexBytes_pair {c d : Char} {rest : List Char} (hc : c.utf8Size = 1) (hd : d.utf8Size = 1) :
    hexBytes (encoded (c :: d :: rest)) =
      match u8FromStrRadix c.val.toUInt8 d.val.toUInt8 with
      | none => .ok none
      | some b => do return (← hexBytes (encoded rest)).map (b :: ·) := by
  rw [encoded_cons, encoded_cons, String.utf8EncodeChar_eq_singleton hc,
    String.utf8EncodeChar_eq_singleton hd, List.singleton_append, List.singleton_append, hexBytes,
    isContinuation_of_size_one hc, head_encoded]
  rfl

theorem Spells.hexBytes_eq {cs : List Char} {bytes : List UInt8} (h : Spells cs bytes) :
    hexBytes (encoded cs) = .ok (some bytes) := by
  induction h with
  | nil => rfl
  | cons hc hd hparse _ ih =>
      rw [hexBytes_pair hc hd, hparse, ih]
      rfl

/-- A panic behind a run of pairs. -/
theorem Spells.hexBytes_append {run rest : List Char} {bytes : List UInt8} {e : Panic}
    (h : Spells run bytes) (herror : hexBytes (encoded rest) = .error e) :
    hexBytes (encoded (run ++ rest)) = .error e := by
  induction h with
  | nil => exact herror
  | cons hc hd hparse _ ih =>
      rw [List.cons_append, List.cons_append, hexBytes_pair hc hd, hparse, ih]
      rfl

theorem CutsCharacter.hexBytes_eq {cs : List Char} (h : CutsCharacter cs) :
    hexBytes (encoded cs) = .error .charBoundary := by
  obtain ⟨run, bytes, c, rest, rfl, hrun, hcut⟩ := h
  apply hrun.hexBytes_append
  obtain ⟨b, tail, henc, hsize, -, htail⟩ := utf8EncodeChar_spec c
  rw [encoded_cons, henc]
  rcases hcut with hlong | ⟨hone, d, hd, hdlong⟩
  · -- the third byte of `c` continues it
    cases tail with
    | nil => simp at hsize; omega
    | cons x tail =>
        cases tail with
        | nil => simp at hsize; omega
        | cons y more =>
            have hy : isContinuation y = true := htail y (by simp)
            simp [hexBytes, hy]
  · -- the second byte of `d` continues it
    obtain ⟨more, rfl⟩ : ∃ more, rest = d :: more := by
      cases rest with
      | nil => cases hd
      | cons d' more => exact ⟨more, by rw [Option.some.inj hd]⟩
    obtain ⟨b', tail', henc', hsize', -, htail'⟩ := utf8EncodeChar_spec d
    obtain rfl : tail = [] := List.length_eq_zero_iff.mp (by omega)
    rw [encoded_cons, henc']
    cases tail' with
    | nil => simp at hsize'; omega
    | cons x more' =>
        have hx : isContinuation x = true := htail' x (by simp)
        simp [hexBytes, hx]

theorem CutsCharacter.cons {c d : Char} {b : UInt8} {rest : List Char} (hc : c.utf8Size = 1)
    (hd : d.utf8Size = 1) (hparse : u8FromStrRadix c.val.toUInt8 d.val.toUInt8 = some b)
    (h : CutsCharacter rest) : CutsCharacter (c :: d :: rest) := by
  obtain ⟨run, bytes, c', rest', rfl, hrun, hcut⟩ := h
  exact ⟨c :: d :: run, b :: bytes, c', rest', rfl, .cons hc hd hparse hrun, hcut⟩

/-- **What the loop does with a text**: it reads it to the end, or cuts a character, or stops at a pair
that does not parse. -/
theorem hexBytes_cases (cs : List Char) (heven : (encoded cs).length % 2 = 0) :
    (∃ bytes, Spells cs bytes) ∨ CutsCharacter cs ∨ hexBytes (encoded cs) = .ok none := by
  match cs with
  | [] => exact .inl ⟨[], .nil⟩
  | c :: rest =>
      have hpos := c.utf8Size_pos
      obtain hc | hc | hc : c.utf8Size = 1 ∨ c.utf8Size = 2 ∨ 2 < c.utf8Size := by omega
      · match rest with
        | [] =>
            rw [encoded_cons, encoded_nil, List.append_nil, String.length_utf8EncodeChar, hc] at heven
            cases heven
        | d :: rest =>
            have hdpos := d.utf8Size_pos
            by_cases hd : d.utf8Size = 1
            · rw [encoded_cons, encoded_cons, List.length_append, List.length_append,
                String.length_utf8EncodeChar, String.length_utf8EncodeChar, hc, hd] at heven
              cases hparse : u8FromStrRadix c.val.toUInt8 d.val.toUInt8 with
              | none =>
                  refine .inr (.inr ?_)
                  rw [hexBytes_pair hc hd, hparse]
              | some b =>
                  rcases hexBytes_cases rest (by omega) with ⟨bytes, h⟩ | h | h
                  · exact .inl ⟨b :: bytes, .cons hc hd hparse h⟩
                  · exact .inr (.inl (h.cons hc hd hparse))
                  · refine .inr (.inr ?_)
                    rw [hexBytes_pair hc hd, hparse, h]
                    rfl
            · exact .inr (.inl ⟨[], [], c, d :: rest, rfl, .nil, .inr ⟨hc, d, rfl, by omega⟩⟩)
      · -- a character of two bytes is one slice, which does not parse
        refine .inr (.inr ?_)
        obtain ⟨-, hstart, -, -, hsign, hdigit⟩ := isContinuation_or (c.val >>> 6).toUInt8
        rw [encoded_cons, String.utf8EncodeChar_eq_cons_cons hc, List.cons_append, List.cons_append,
          List.nil_append, hexBytes, hstart, head_encoded, u8FromStrRadix, if_neg hsign, hdigit]
        rfl
      · exact .inr (.inl ⟨[], [], c, rest, rfl, .nil, .inl hc⟩)

theorem hexBytes_eq_some_iff {cs : List Char} (heven : (encoded cs).length % 2 = 0)
    {bytes : List UInt8} : hexBytes (encoded cs) = .ok (some bytes) ↔ Spells cs bytes := by
  constructor
  · intro h
    rcases hexBytes_cases cs heven with ⟨bytes', hspells⟩ | hcut | hnone
    · obtain rfl : bytes' = bytes :=
        Option.some.inj (Except.ok.inj (hspells.hexBytes_eq.symm.trans h))
      exact hspells
    · cases hcut.hexBytes_eq.symm.trans h
    · cases hnone.symm.trans h
  · exact Spells.hexBytes_eq

theorem hexBytes_eq_error_iff {cs : List Char} (heven : (encoded cs).length % 2 = 0) {e : Panic} :
    hexBytes (encoded cs) = .error e ↔ CutsCharacter cs := by
  constructor
  · intro h
    rcases hexBytes_cases cs heven with ⟨bytes, hspells⟩ | hcut | hnone
    · cases hspells.hexBytes_eq.symm.trans h
    · exact hcut
    · cases hnone.symm.trans h
  · intro hcut
    -- there is no other panic
    cases e
    exact hcut.hexBytes_eq

/-! ## Signs

`u8::from_str_radix` takes a sign in front of one digit, so that `+f` is a byte. In a text that parses this
is the only way for a character to be no digit. -/

theorem val_toUInt8_eq_ofNat {c : Char} (h : c.utf8Size = 1) :
    ∃ n : Fin 128, c = Char.ofNat n ∧ c.val.toUInt8 = UInt8.ofNat n := by
  obtain ⟨hle, hval⟩ := toNat_toUInt8_of_size_one h
  refine ⟨⟨c.toNat, by omega⟩, (Char.ofNat_toNat c).symm, ?_⟩
  show c.val.toUInt8 = UInt8.ofNat c.toNat
  rw [← hval, UInt8.ofNat_toNat]

theorem isAsciiHexdigit_iff {c : Char} (h : c.utf8Size = 1) :
    isAsciiHexdigit c = true ↔ (hexDigit c.val.toUInt8).isSome = true := by
  have hall : ∀ n : Fin 128, isAsciiHexdigit (Char.ofNat n) = (hexDigit (UInt8.ofNat n)).isSome := by
    decide +kernel
  obtain ⟨n, rfl, hbyte⟩ := val_toUInt8_eq_ofNat h
  rw [hbyte, hall n]

theorem val_toUInt8_eq_plus {c : Char} (h : c.utf8Size = 1) : c.val.toUInt8 = 43 ↔ c = '+' := by
  have hall : ∀ n : Fin 128, UInt8.ofNat n = 43 ↔ Char.ofNat n = '+' := by decide +kernel
  obtain ⟨n, rfl, hbyte⟩ := val_toUInt8_eq_ofNat h
  rw [hbyte]
  exact hall n

/-- In a text that parses, what is no digit is a sign. -/
theorem Spells.digits_iff {cs : List Char} {bytes : List UInt8} (h : Spells cs bytes) :
    (∀ c ∈ cs, isAsciiHexdigit c = true) ↔ '+' ∉ cs := by
  constructor
  · intro hall hmem
    exact absurd (hall '+' hmem) (by decide)
  induction h with
  | nil => simp
  | @cons c d b rest bytes hc hd hparse _ ih =>
      intro hplus
      rw [List.mem_cons, List.mem_cons, not_or, not_or] at hplus
      have hsign : c.val.toUInt8 ≠ 43 := fun heq => hplus.1 ((val_toUInt8_eq_plus hc).mp heq).symm
      -- without a sign both characters of the pair are digits
      rw [u8FromStrRadix, if_neg hsign] at hparse
      rw [List.forall_mem_cons, List.forall_mem_cons, isAsciiHexdigit_iff hc, isAsciiHexdigit_iff hd]
      refine ⟨?_, ?_, ih hplus.2.2⟩
      · cases hdigit : hexDigit c.val.toUInt8 with
        | none => rw [hdigit] at hparse; cases hparse
        | some _ => rfl
      · cases hdigit : hexDigit d.val.toUInt8 with
        | none =>
            rw [hdigit] at hparse
            cases hhi : hexDigit c.val.toUInt8 with
            | none => rw [hhi] at hparse; cases hparse
            | some _ => rw [hhi] at hparse; cases hparse
        | some _ => rfl

/-! ## The decoders

Three decoders and one loop, each with a check of the length in front and a last step behind. The checks and
the last steps differ, so the exact condition is stated for any of them. -/

/-- What the three decoders share: the loop, behind a check of the length. -/
def decodeHex (decode : List UInt8 → Option α) (right : Prop) [Decidable right] (hex : String) :
    Except Panic (Option α) :=
  if right then do return (← hexBytes (asBytes hex)).bind decode else .ok none

/-- The decoder returns, and a text that it accepts is of the right length and all digits. -/
structure Exact (right : Prop) (hex : String) (result : Except Panic (Option α)) : Prop where
  returns : ∃ r, result = .ok r
  strict : ∀ x, result = .ok (some x) → right ∧ ∀ c ∈ hex.toList, isAsciiHexdigit c = true

/-- No slice ends inside a character, and a text with signs does not decode. -/
structure Clean (decode : List UInt8 → Option α) (hex : String) : Prop where
  whole : ¬ CutsCharacter hex.toList
  unsigned : ∀ bytes, Spells hex.toList bytes → '+' ∈ hex.toList → decode bytes = none

section Decoding

variable {decode : List UInt8 → Option α} {right : Prop} [Decidable right] {hex : String}

/-- A decoder returns unless it cuts a character. -/
theorem returns_decodeHex_iff (heven : right → (asBytes hex).length % 2 = 0) :
    (∃ r, decodeHex decode right hex = .ok r) ↔ (right → ¬ CutsCharacter hex.toList) := by
  unfold decodeHex
  by_cases hright : right
  · have hbytes : asBytes hex = encoded hex.toList := asBytes_eq_flatMap hex
    have hlength := heven hright
    rw [hbytes] at hlength
    rw [if_pos hright, hbytes, forall_prop_of_true hright]
    cases hloop : hexBytes (encoded hex.toList) with
    | error e =>
        refine iff_of_false ?_ (not_not_intro ((hexBytes_eq_error_iff hlength).mp hloop))
        rintro ⟨r, hr⟩
        cases hr
    | ok r =>
        refine iff_of_true ⟨r.bind decode, rfl⟩ ?_
        intro hcut
        cases hloop.symm.trans hcut.hexBytes_eq
  · rw [if_neg hright]
    exact iff_of_true ⟨none, rfl⟩ fun h => absurd h hright

theorem decodeHex_eq_some_iff (heven : right → (asBytes hex).length % 2 = 0) {x : α} :
    decodeHex decode right hex = .ok (some x) ↔
      right ∧ ∃ bytes, Spells hex.toList bytes ∧ decode bytes = some x := by
  unfold decodeHex
  by_cases hright : right
  · have hbytes : asBytes hex = encoded hex.toList := asBytes_eq_flatMap hex
    have hlength := heven hright
    rw [hbytes] at hlength
    rw [if_pos hright, hbytes, and_iff_right hright]
    simp only [← hexBytes_eq_some_iff hlength]
    cases hexBytes (encoded hex.toList) with
    | error e => simp
    | ok r =>
        cases r with
        | none => simp
        | some bytes => simp
  · rw [if_neg hright]
    simp [hright]

/-- **When a decoder is exact.** -/
theorem exact_decodeHex_iff (heven : right → (asBytes hex).length % 2 = 0) :
    Exact right hex (decodeHex decode right hex) ↔ (right → Clean decode hex) := by
  constructor
  · rintro ⟨hreturns, hstrict⟩ hright
    refine ⟨(returns_decodeHex_iff heven).mp hreturns hright, ?_⟩
    intro bytes hspells hplus
    cases hdecode : decode bytes with
    | none => rfl
    | some x =>
        have haccept := (decodeHex_eq_some_iff heven).mpr ⟨hright, bytes, hspells, hdecode⟩
        exact absurd hplus (hspells.digits_iff.mp (hstrict x haccept).2)
  · intro hclean
    refine ⟨(returns_decodeHex_iff heven).mpr fun hright => (hclean hright).whole, ?_⟩
    intro x haccept
    obtain ⟨hright, bytes, hspells, hdecode⟩ := (decodeHex_eq_some_iff heven).mp haccept
    refine ⟨hright, hspells.digits_iff.mpr ?_⟩
    intro hplus
    rw [(hclean hright).unsigned bytes hspells hplus] at hdecode
    cases hdecode

end Decoding

theorem Commitment.fromHex_eq (hex : String) :
    Commitment.fromHex (P := P) hex = decodeHex fromCompressedBytes ((asBytes hex).length = 64) hex := by
  unfold fromHex decodeHex
  by_cases h : (asBytes hex).length = 64
  · rw [if_neg (not_not_intro h), if_pos h]
  · rw [if_pos h, if_neg h]

theorem Signature.fromHex_eq (S : ScalarCodec P) (hex : String) :
    Signature.fromHex S hex = decodeHex (fromScalarBytes S) ((asBytes hex).length = 128) hex := by
  unfold fromHex decodeHex
  by_cases h : (asBytes hex).length = 128
  · rw [if_neg (not_not_intro h), if_pos h]
  · rw [if_pos h, if_neg h]

theorem hexDecode_eq (hex : String) :
    hexDecode hex = decodeHex some ((asBytes hex).length % 2 = 0) hex := by
  unfold hexDecode decodeHex
  by_cases h : (asBytes hex).length % 2 = 0
  · rw [if_neg (not_not_intro h), if_pos h]
    cases hexBytes (asBytes hex) with
    | error e => rfl
    | ok r => cases r <;> rfl
  · rw [if_pos h, if_neg h]

/-- A note of a scan decodes unless its text cuts a character. -/
theorem ScanEntry.decodes_iff (entry : ScanEntry) :
    entry.Decodes ↔
      ((asBytes entry.noteHex).length % 2 = 0 → ¬ CutsCharacter entry.noteHex.toList) := by
  unfold Decodes
  rw [hexDecode_eq]
  exact returns_decodeHex_iff id

/-! ## Round trips

The encoders write two lowercase digits for each byte. The decoder gives back the bytes, and the last step
gives back the point or the scalars that they came from. -/

theorem length_asBytes_hexEncode (bytes : List UInt8) :
    (asBytes (hexEncode bytes)).length = 2 * bytes.length := by
  rw [asBytes_hexEncode]
  induction bytes with
  | nil => rfl
  | cons b bytes ih => grind

theorem decodeHex_hexEncode (decode : List UInt8 → Option α) {right : Prop} [Decidable right]
    (hright : right) (bytes : List UInt8) :
    decodeHex decode right (hexEncode bytes) = .ok (decode bytes) := by
  rw [decodeHex, if_pos hright, asBytes_hexEncode, hexBytes_hexPairs]
  rfl

theorem Commitment.fromHex_toHex (c : Commitment P) : fromHex c.toHex = .ok (some c) := by
  have hlength : c.toBytes.length = 32 := (P.compress c.asPoint).2
  have hdecode : fromCompressedBytes c.toBytes = some c := by
    rw [fromCompressedBytes, dif_pos hlength]
    show (P.decompress (P.compress c.asPoint)).map Commitment.mk = some c
    rw [P.decompress_compress]
    rfl
  rw [fromHex_eq, toHex, decodeHex_hexEncode _ (by rw [length_asBytes_hexEncode, hlength]), hdecode]

theorem Signature.fromHex_toHex (S : ScalarCodec P) {sig : Signature P} (hs : S.IsCanonical sig.s)
    (he : S.IsCanonical sig.e) : fromHex S sig.toHex = .ok (some sig) := by
  have hslength : (P.scalarBytes sig.s).toList.length = 32 := (P.scalarBytes sig.s).2
  have helength : (P.scalarBytes sig.e).toList.length = 32 := (P.scalarBytes sig.e).2
  have hlength : ((P.scalarBytes sig.s).toList ++ (P.scalarBytes sig.e).toList).length = 64 := by
    rw [List.length_append, hslength, helength]
  have hdecode : fromScalarBytes S ((P.scalarBytes sig.s).toList ++ (P.scalarBytes sig.e).toList) =
      some sig := by
    rw [fromScalarBytes, dif_pos hlength]
    simp only [List.take_left' hslength, List.drop_left' hslength]
    show (do
      let s ← S.fromCanonicalBytes (P.scalarBytes sig.s)
      let e ← S.fromCanonicalBytes (P.scalarBytes sig.e)
      return (⟨s, e⟩ : Signature P)) = some sig
    rw [S.fromCanonicalBytes_scalarBytes _ hs, S.fromCanonicalBytes_scalarBytes _ he]
    rfl
  rw [fromHex_eq, toHex, decodeHex_hexEncode _ (by rw [length_asBytes_hexEncode, hlength]), hdecode]

/-- **Hex decoding.** A decoder returns, and refuses what is not all digits of the right length, exactly
when the text has another length or is clean. What was encoded always decodes. -/
theorem hex_exact_iff (S : ScalarCodec P) :
    (∀ hex, Exact ((asBytes hex).length = 64) hex (Commitment.fromHex (P := P) hex) ↔
      ((asBytes hex).length = 64 → Clean (Commitment.fromCompressedBytes (P := P)) hex)) ∧
    (∀ hex, Exact ((asBytes hex).length = 128) hex (Signature.fromHex S hex) ↔
      ((asBytes hex).length = 128 → Clean (Signature.fromScalarBytes S) hex)) ∧
    (∀ hex, Exact ((asBytes hex).length % 2 = 0) hex (hexDecode hex) ↔
      ((asBytes hex).length % 2 = 0 → Clean some hex)) ∧
    (∀ c : Commitment P, Commitment.fromHex c.toHex = .ok (some c)) ∧
    ∀ sig : Signature P, S.IsCanonical sig.s → S.IsCanonical sig.e →
      Signature.fromHex S sig.toHex = .ok (some sig) := by
  refine ⟨?_, ?_, ?_, Commitment.fromHex_toHex, fun sig => Signature.fromHex_toHex S⟩
  · intro hex
    rw [Commitment.fromHex_eq]
    exact exact_decodeHex_iff fun h => by rw [h]
  · intro hex
    rw [Signature.fromHex_eq]
    exact exact_decodeHex_iff fun h => by rw [h]
  · intro hex
    rw [hexDecode_eq]
    exact exact_decodeHex_iff id

/-! ## The devnet's scalars

The devnet has scalars of 256 bits, so the check against the order of the group is written out here. The
texts that are decoded wrongly need nothing of it. -/

namespace Devnet

/-- The order of the Ristretto group. -/
def groupOrder : ℕ := 2 ^ 252 + 27742317777372353535851937790883648493

/-- `Scalar::from_canonical_bytes`. -/
def canonicalScalar (bytes : Bytes32) : Option (BitVec 256) :=
  if bytesNat bytes.toList < groupOrder then some (BitVec.ofNat 256 (bytesNat bytes.toList)) else none

theorem canonicalScalar_natBytes {x : BitVec 256} (hx : x.toNat < groupOrder) :
    canonicalScalar (natBytes x.toNat) = some x := by
  have hbytes : bytesNat (natBytes x.toNat).toList = x.toNat := by
    rw [natBytes, List.Vector.toList_mk, bytesNat_toLeBytes]
    exact Nat.mod_eq_of_lt x.isLt
  rw [canonicalScalar, hbytes, if_pos hx, BitVec.ofNat_toNat, BitVec.setWidth_eq]

def scalarCodec : ScalarCodec crypto where
  fromCanonicalBytes := canonicalScalar
  IsCanonical x := BitVec.toNat x < groupOrder
  fromCanonicalBytes_scalarBytes _ hx := canonicalScalar_natBytes hx

/-- 32 bytes of text whose second and third are one character. -/
def cutHex : String := "aé" ++ String.ofList (List.replicate 29 'a')

/-- A character across two slices makes each decoder panic, and a sign is read as a digit. -/
theorem hex_not_exact :
    ¬ Exact ((asBytes (cutHex ++ cutHex)).length = 64) (cutHex ++ cutHex)
        (Commitment.fromHex (P := crypto) (cutHex ++ cutHex)) ∧
      ¬ Exact ((asBytes (cutHex ++ cutHex ++ cutHex ++ cutHex)).length = 128)
        (cutHex ++ cutHex ++ cutHex ++ cutHex)
        (Signature.fromHex scalarCodec (cutHex ++ cutHex ++ cutHex ++ cutHex)) ∧
      ¬ Exact ((asBytes "aéa").length % 2 = 0) "aéa" (hexDecode "aéa") ∧
      ¬ Exact ((asBytes "+f").length % 2 = 0) "+f" (hexDecode "+f") := by
  refine ⟨?_, ?_, ?_, ?_⟩
  · rintro ⟨⟨r, hr⟩, -⟩
    -- the second pair starts with one byte of the two of `é`
    have hpanic : Commitment.fromHex (P := crypto) (cutHex ++ cutHex) = .error .charBoundary := rfl
    cases hpanic.symm.trans hr
  · rintro ⟨⟨r, hr⟩, -⟩
    have hpanic : Signature.fromHex scalarCodec (cutHex ++ cutHex ++ cutHex ++ cutHex) =
      .error .charBoundary := rfl
    cases hpanic.symm.trans hr
  · rintro ⟨⟨r, hr⟩, -⟩
    have hpanic : hexDecode "aéa" = .error .charBoundary := rfl
    cases hpanic.symm.trans hr
  · rintro ⟨-, hstrict⟩
    have haccept : hexDecode "+f" = .ok (some [15]) := rfl
    exact absurd ((hstrict _ haccept).2 '+' (by decide)) (by decide)

end Devnet

end Haze
