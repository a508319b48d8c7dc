import Haze.Wallet.Notes

/-!
# Framing (`p2p/src/transport.rs`)

On a TCP connection a message goes as its length, in four bytes, and its bytes. `write_message` puts no
bound on the length, and casts it to `u32`; `read_message` treats a length above `MAX_MESSAGE_SIZE` as the
end of the connection. What one side has written is read back if no message is larger than that, and only
then.

The encoder is `bincode`, a dependency: serializing a message may fail, and what it is relied on for are
the two properties of `BincodeLaws`.
-/

namespace Haze

/-- `MAX_MESSAGE_SIZE`. -/
def maxMessageSize : ℕ := 32 * 1024 * 1024

/-- `bincode::serialize` and `bincode::deserialize` of one type. -/
structure Bincode (M : Type) where
  serialize : M → Option (List UInt8)
  deserialize : List UInt8 → Option M

variable {M : Type}

/-- What is serialized is deserialized, from all of its bytes: more may follow, but none may be missing. -/
structure BincodeLaws (codec : Bincode M) : Prop where
  roundTrip : ∀ m bytes, codec.serialize m = some bytes → codec.deserialize bytes = some m
  whole : ∀ m bytes input, codec.serialize m = some bytes → codec.deserialize input = some m →
    bytes.length ≤ input.length

section Tcp

variable (codec : Bincode M)

/-- `write_message` on a TCP connection to which `stream` has been written. -/
def writeMessage (stream : List UInt8) (msg : M) : Option (List UInt8) := do
  let bytes ← codec.serialize msg
  let len := UInt32.ofNat bytes.length
  return stream ++ toLeBytes 4 len.toNat ++ bytes

/-- `read_message` on a TCP connection that ends after `stream`: the message, and what is left to read. -/
def readMessage (stream : List UInt8) : Option M × List UInt8 :=
  if stream.length < 4 then (none, [])
  else
    let len := (UInt32.ofNat (fromLeBytes (stream.take 4))).toNat
    let rest := stream.drop 4
    if len > maxMessageSize then (none, rest)
    else if rest.length < len then (none, [])
    else (codec.deserialize (rest.take len), rest.drop len)

/-- What a number of successive calls return. -/
def readMessages : ℕ → List UInt8 → List (Option M)
  | 0, _ => []
  | n + 1, stream => (readMessage codec stream).1 :: readMessages n (readMessage codec stream).2

end Tcp

/-! ## One frame

A frame is four bytes of length, little endian, and the message. A message that is longer than the reader's
limit is written all the same, and then it is not read. -/

section Frames

variable {codec : Bincode M}

/-- The length and the bytes of a message, as they are written. -/
def frame (bytes : List UInt8) : List UInt8 :=
  toLeBytes 4 (UInt32.ofNat bytes.length).toNat ++ bytes

/-- A reader finds the length modulo `2 ^ 32`. -/
theorem readMessage_frame (bytes rest : List UInt8) :
    readMessage codec (frame bytes ++ rest) =
      if bytes.length % 2 ^ 32 > maxMessageSize then (none, bytes ++ rest)
      else (codec.deserialize (bytes.take (bytes.length % 2 ^ 32)),
        bytes.drop (bytes.length % 2 ^ 32) ++ rest) := by
  have hle : bytes.length % 2 ^ 32 ≤ bytes.length := Nat.mod_le _ _
  have hwidth : (toLeBytes 4 (UInt32.ofNat bytes.length).toNat).length = 4 := Devnet.length_toLeBytes _ _
  have hlen : (UInt32.ofNat (fromLeBytes (toLeBytes 4 (UInt32.ofNat bytes.length).toNat))).toNat =
      bytes.length % 2 ^ 32 := by
    rw [fromLeBytes_toLeBytes, UInt32.toNat_ofNat', UInt32.toNat_ofNat']
    omega
  rw [frame, List.append_assoc, readMessage, List.take_left' hwidth, List.drop_left' hwidth]
  dsimp only
  rw [hlen, if_neg (by rw [List.length_append, hwidth]; omega)]
  congr 1
  rw [if_neg (by rw [List.length_append]; omega), List.take_append_of_le_length hle,
    List.drop_append_of_le_length hle]

/-- A message that fits is read, and the reader is behind it. -/
theorem readMessage_of_le (laws : BincodeLaws codec) {m : M} {bytes : List UInt8}
    (hbytes : codec.serialize m = some bytes) (hfits : bytes.length ≤ maxMessageSize)
    (rest : List UInt8) : readMessage codec (frame bytes ++ rest) = (some m, rest) := by
  have hmod : bytes.length % 2 ^ 32 = bytes.length := by
    apply Nat.mod_eq_of_lt
    exact lt_of_le_of_lt hfits (by decide)
  rw [readMessage_frame, hmod, if_neg (Nat.not_lt.mpr hfits), List.take_length, List.drop_length,
    List.nil_append, laws.roundTrip m bytes hbytes]

/-- One that does not is not: its length is refused, or read as one so short that bytes are missing. -/
theorem le_of_readMessage (laws : BincodeLaws codec) {m : M} {bytes rest : List UInt8}
    (hbytes : codec.serialize m = some bytes)
    (hread : (readMessage codec (frame bytes ++ rest)).1 = some m) : bytes.length ≤ maxMessageSize := by
  rw [readMessage_frame] at hread
  split at hread
  next => cases hread
  next hsmall =>
    have hwhole := laws.whole m bytes _ hbytes hread
    rw [List.length_take] at hwhole
    have hmod : bytes.length ≤ bytes.length % 2 ^ 32 := hwhole.trans (Nat.min_le_left _ _)
    exact hmod.trans (Nat.not_lt.mp hsmall)

/-! ## Sequences

One frame that cannot be read leaves the reader at a wrong place in the stream, so the sequence is read back
just when every message is within the limit. -/

/-- The messages and their bytes. -/
def Serialized (codec : Bincode M) : List M → List (List UInt8) → Prop :=
  List.Forall₂ fun m bytes => codec.serialize m = some bytes

/-- Writing a sequence succeeds when every message can be serialized, and puts their frames on the
stream. -/
theorem writeMessages_eq_some {ms : List M} {start stream : List UInt8}
    (h : ms.foldlM (writeMessage codec) start = some stream) :
    ∃ payloads, Serialized codec ms payloads ∧ stream = start ++ payloads.flatMap frame := by
  induction ms generalizing start with
  | nil =>
      cases h
      exact ⟨[], .nil, (List.append_nil _).symm⟩
  | cons m ms ih =>
      rw [List.foldlM_cons, Option.bind_eq_bind, Option.bind_eq_some_iff] at h
      obtain ⟨next, hnext, hrest⟩ := h
      simp only [writeMessage, Option.bind_eq_bind, Option.bind_eq_some_iff, Option.pure_def,
        Option.some.injEq] at hnext
      obtain ⟨bytes, hbytes, rfl⟩ := hnext
      obtain ⟨payloads, hserialized, rfl⟩ := ih hrest
      refine ⟨bytes :: payloads, .cons hbytes hserialized, ?_⟩
      rw [List.flatMap_cons, frame]
      simp only [List.append_assoc]

theorem readMessages_frames_iff (laws : BincodeLaws codec) {ms : List M} {payloads : List (List UInt8)}
    (h : Serialized codec ms payloads) :
    readMessages codec ms.length (payloads.flatMap frame) = ms.map some ↔
      ∀ bytes ∈ payloads, bytes.length ≤ maxMessageSize := by
  induction h with
  | nil => exact ⟨fun _ => nofun, fun _ => rfl⟩
  | @cons m bytes ms payloads hbytes _ ih =>
      rw [List.flatMap_cons, List.length_cons, readMessages, List.map_cons, List.forall_mem_cons,
        List.cons.injEq]
      constructor
      · rintro ⟨hfirst, hrest⟩
        have hfits := le_of_readMessage laws hbytes hfirst
        rw [readMessage_of_le laws hbytes hfits] at hrest
        exact ⟨hfits, ih.mp hrest⟩
      · rintro ⟨hfits, hrest⟩
        rw [readMessage_of_le laws hbytes hfits]
        exact ⟨rfl, ih.mpr hrest⟩

/-- **What is written is read**, if and only if every message fits. -/
theorem read_written_iff (laws : BincodeLaws codec) {ms : List M} {stream : List UInt8}
    (hwritten : ms.foldlM (writeMessage codec) [] = some stream) :
    readMessages codec ms.length stream = ms.map some ↔
      ∀ m ∈ ms, ∀ bytes, codec.serialize m = some bytes → bytes.length ≤ maxMessageSize := by
  obtain ⟨payloads, hserialized, rfl⟩ := writeMessages_eq_some hwritten
  rw [List.nil_append, readMessages_frames_iff laws hserialized]
  clear hwritten
  induction hserialized with
  | nil => exact ⟨fun _ => nofun, fun _ => nofun⟩
  | @cons m bytes ms payloads hbytes _ ih =>
      rw [List.forall_mem_cons, List.forall_mem_cons, ih]
      refine and_congr_left fun _ => ⟨?_, fun h => h bytes hbytes⟩
      intro h bytes' hbytes'
      cases hbytes.symm.trans hbytes'
      exact h

end Frames

namespace Devnet

/-! ## Messages on the wire

The messages of a snapshot as they go over the wire of the devnet, to have a codec for which the laws can be
proved. -/

/-- The request for the coins and its answer. -/
inductive SnapshotMessage where
  | getUtxoSnapshot
  | utxoSnapshot (utxos : List (Commitment crypto)) (height : UInt64) (tipHash : Bytes32)

/-- A commitment goes as a byte string. -/
def commitmentBytes (c : Commitment crypto) : List UInt8 :=
  toLeBytes 8 32 ++ c.toBytes

def snapshotBytes (utxos : List (Commitment crypto)) (height : UInt64) (tipHash : Bytes32) :
    List UInt8 :=
  toLeBytes 8 utxos.length ++ (utxos.flatMap commitmentBytes ++
    (toLeBytes 8 height.toNat ++ tipHash.toList))

def readBytes (n : ℕ) (input : List UInt8) : Option (List UInt8 × List UInt8) :=
  if n ≤ input.length then some (input.take n, input.drop n) else none

def readInt (width : ℕ) (input : List UInt8) : Option (ℕ × List UInt8) :=
  (readBytes width input).map fun r => (fromLeBytes r.1, r.2)

def readCommitment (input : List UInt8) : Option (Commitment crypto × List UInt8) := do
  let (len, input) ← readInt 8 input
  let (bytes, input) ← readBytes len input
  let c ← Commitment.fromCompressedBytes bytes
  return (c, input)

def readCommitments : ℕ → List UInt8 → Option (List (Commitment crypto) × List UInt8)
  | 0, input => some ([], input)
  | n + 1, input => do
      let (c, input) ← readCommitment input
      let (cs, input) ← readCommitments n input
      return (c :: cs, input)

def readSnapshot (input : List UInt8) : Option SnapshotMessage := do
  let (count, input) ← readInt 8 input
  let (utxos, input) ← readCommitments count input
  let (height, input) ← readInt 8 input
  let (tipHash, _) ← readBytes 32 input
  if h : tipHash.length = 32 then
    return .utxoSnapshot utxos (UInt64.ofNat height) ⟨tipHash, h⟩
  else none

/-- The index of the variant, and its fields. -/
def snapshotCodec : Bincode SnapshotMessage where
  serialize
    | .getUtxoSnapshot => some (toLeBytes 4 10)
    | .utxoSnapshot utxos height tipHash =>
        if utxos.length < 2 ^ 64 then some (toLeBytes 4 11 ++ snapshotBytes utxos height tipHash)
        else none
  deserialize input := do
    let (variant, input) ← readInt 4 input
    if variant = 10 then return .getUtxoSnapshot
    else if variant = 11 then readSnapshot input
    else none

theorem readBytes_append {n : ℕ} {bytes : List UInt8} (h : bytes.length = n) (rest : List UInt8) :
    readBytes n (bytes ++ rest) = some (bytes, rest) := by
  rw [readBytes, if_pos (by rw [List.length_append]; omega), List.take_left' h, List.drop_left' h]

theorem readInt_append {width n : ℕ} (h : n < 256 ^ width) (rest : List UInt8) :
    readInt width (toLeBytes width n ++ rest) = some (n, rest) := by
  rw [readInt, readBytes_append (length_toLeBytes width n), Option.map_some, fromLeBytes_toLeBytes,
    Nat.mod_eq_of_lt h]

theorem readCommitment_append (c : Commitment crypto) (rest : List UInt8) :
    readCommitment (commitmentBytes c ++ rest) = some (c, rest) := by
  have hc : Commitment.fromCompressedBytes c.toBytes = some c := by
    rw [Commitment.fromCompressedBytes, dif_pos (Commitment.length_toBytes c)]
    show (crypto.decompress (crypto.compress c.asPoint)).map Commitment.mk = some c
    rw [crypto.decompress_compress, Option.map_some]
  rw [readCommitment, commitmentBytes, List.append_assoc, readInt_append (by decide)]
  simp only [Option.bind_eq_bind, Option.bind_some]
  rw [readBytes_append (Commitment.length_toBytes c)]
  simp only [Option.bind_some, hc, Option.pure_def]

theorem readCommitments_append (cs : List (Commitment crypto)) (rest : List UInt8) :
    readCommitments cs.length (cs.flatMap commitmentBytes ++ rest) = some (cs, rest) := by
  induction cs with
  | nil => rfl
  | cons c cs ih =>
      rw [List.length_cons, readCommitments, List.flatMap_cons, List.append_assoc,
        readCommitment_append]
      simp only [Option.bind_eq_bind, Option.bind_some, ih, Option.pure_def]

/-! What a reader has returned, it has read. -/

theorem length_of_readBytes {n : ℕ} {input bytes rest : List UInt8}
    (h : readBytes n input = some (bytes, rest)) :
    bytes.length = n ∧ input.length = n + rest.length := by
  unfold readBytes at h
  split at h
  next hle =>
    obtain ⟨rfl, rfl⟩ := Prod.mk.inj (Option.some.inj h)
    rw [List.length_take, List.length_drop]
    omega
  next => cases h

theorem length_of_readInt {width n : ℕ} {input rest : List UInt8}
    (h : readInt width input = some (n, rest)) : input.length = width + rest.length := by
  obtain ⟨⟨bytes, rest'⟩, hbytes, heq⟩ := Option.map_eq_some_iff.mp h
  obtain rfl : rest' = rest := congrArg Prod.snd heq
  exact (length_of_readBytes hbytes).2

theorem length_of_readCommitment {input rest : List UInt8} {c : Commitment crypto}
    (h : readCommitment input = some (c, rest)) : input.length = 40 + rest.length := by
  simp only [readCommitment, Option.bind_eq_bind, Option.bind_eq_some_iff, Option.pure_def,
    Option.some.injEq] at h
  obtain ⟨⟨len, input₁⟩, hlen, ⟨bytes, input₂⟩, hbytes, c', hc, heq⟩ := h
  obtain ⟨rfl, rfl⟩ := Prod.mk.inj heq
  have h32 : bytes.length = 32 := by
    unfold Commitment.fromCompressedBytes at hc
    split at hc
    next h => exact h
    next => cases hc
  have hint : input.length = 8 + input₁.length := length_of_readInt hlen
  obtain ⟨hwidth, hread⟩ := length_of_readBytes hbytes
  replace hwidth : bytes.length = len := hwidth
  replace hread : input₁.length = len + input₂.length := hread
  show input.length = 40 + input₂.length
  omega

theorem length_of_readCommitments {n : ℕ} {input rest : List UInt8} {cs : List (Commitment crypto)}
    (h : readCommitments n input = some (cs, rest)) :
    cs.length = n ∧ input.length = 40 * n + rest.length := by
  induction n generalizing input cs rest with
  | zero =>
      cases h
      exact ⟨rfl, by omega⟩
  | succ n ih =>
      simp only [readCommitments, Option.bind_eq_bind, Option.bind_eq_some_iff, Option.pure_def,
        Option.some.injEq] at h
      obtain ⟨⟨c, input₁⟩, hc, ⟨cs', input₂⟩, hcs, heq⟩ := h
      obtain ⟨rfl, rfl⟩ := Prod.mk.inj heq
      obtain ⟨hcount, hlength⟩ := ih hcs
      replace hlength : input₁.length = 40 * n + input₂.length := hlength
      have hfirst : input.length = 40 + input₁.length := length_of_readCommitment hc
      refine ⟨by rw [List.length_cons, hcount], ?_⟩
      show input.length = 40 * (n + 1) + input₂.length
      omega

theorem length_snapshotBytes (utxos : List (Commitment crypto)) (height : UInt64) (tipHash : Bytes32) :
    (snapshotBytes utxos height tipHash).length = 48 + 40 * utxos.length := by
  have hcommitment : ∀ c : Commitment crypto, (commitmentBytes c).length = 40 := by
    intro c
    rw [commitmentBytes, List.length_append, length_toLeBytes, Commitment.length_toBytes]
  have hcoins : (utxos.flatMap commitmentBytes).length = 40 * utxos.length := by
    rw [List.length_flatMap, List.map_congr_left fun c _ => hcommitment c, List.map_const',
      List.sum_replicate, smul_eq_mul, Nat.mul_comm]
  have htip : tipHash.toList.length = 32 := tipHash.toList_length
  simp only [snapshotBytes, List.length_append, length_toLeBytes, hcoins, htip]
  omega

theorem readSnapshot_snapshotBytes {utxos : List (Commitment crypto)} (hlt : utxos.length < 2 ^ 64)
    (height : UInt64) (tipHash : Bytes32) :
    readSnapshot (snapshotBytes utxos height tipHash) = some (.utxoSnapshot utxos height tipHash) := by
  have htip : tipHash.toList.length = 32 := tipHash.toList_length
  rw [readSnapshot, snapshotBytes, readInt_append (by simpa using hlt)]
  simp only [Option.bind_eq_bind, Option.bind_some, readCommitments_append]
  rw [readInt_append (by simpa using height.toNat_lt), Option.bind_some,
    ← List.append_nil tipHash.toList, readBytes_append htip, Option.bind_some, dif_pos htip,
    UInt64.ofNat_toNat]
  rfl

theorem length_of_readSnapshot {input : List UInt8} {m : SnapshotMessage}
    (h : readSnapshot input = some m) : ∃ utxos height tipHash,
      m = .utxoSnapshot utxos height tipHash ∧ 48 + 40 * utxos.length ≤ input.length := by
  simp only [readSnapshot, Option.bind_eq_bind, Option.bind_eq_some_iff] at h
  obtain ⟨⟨count, input₁⟩, hcount, ⟨utxos, input₂⟩, hutxos, ⟨height, input₃⟩, hheight, ⟨tipHash, input₄⟩,
    htip, hm⟩ := h
  split at hm
  next h32 =>
    obtain rfl := Option.some.inj hm
    have hfirst : input.length = 8 + input₁.length := length_of_readInt hcount
    obtain ⟨hlength, hcoins⟩ := length_of_readCommitments hutxos
    replace hlength : utxos.length = count := hlength
    replace hcoins : input₁.length = 40 * count + input₂.length := hcoins
    have hnext : input₂.length = 8 + input₃.length := length_of_readInt hheight
    have hlast : input₃.length = 32 + input₄.length := (length_of_readBytes htip).2
    refine ⟨utxos, _, _, rfl, ?_⟩
    omega
  next => cases hm

theorem snapshotCodec_laws : BincodeLaws snapshotCodec where
  -- written and read back
  roundTrip m bytes h := by
    cases m with
    | getUtxoSnapshot =>
        cases h
        rfl
    | utxoSnapshot utxos height tipHash =>
        simp only [snapshotCodec, Option.ite_none_right_eq_some, Option.some.injEq] at h ⊢
        obtain ⟨hlt, rfl⟩ := h
        rw [readInt_append (by decide)]
        simp only [Option.bind_eq_bind, Option.bind_some, Nat.reduceEqDiff, if_false, if_true]
        exact readSnapshot_snapshotBytes hlt height tipHash
  -- what a decoder takes is at least what the encoder writes
  whole m bytes input hbytes hread := by
    simp only [snapshotCodec, Option.bind_eq_bind, Option.bind_eq_some_iff] at hread
    obtain ⟨⟨variant, input₁⟩, hvariant, hread⟩ := hread
    have hfirst : input.length = 4 + input₁.length := length_of_readInt hvariant
    simp only at hread
    split at hread
    next =>
      cases hread
      cases hbytes
      rw [length_toLeBytes]
      omega
    next =>
      split at hread
      next =>
        obtain ⟨utxos, height, tipHash, rfl, hlength⟩ := length_of_readSnapshot hread
        simp only [snapshotCodec] at hbytes
        split at hbytes
        next =>
          obtain rfl := Option.some.inj hbytes
          rw [List.length_append, length_toLeBytes, length_snapshotBytes]
          omega
        next => cases hbytes
      next => cases hread

/-- A node answers with its coins, however many they are. -/
def manyCoins (n : ℕ) : List (Commitment crypto) :=
  (List.range n).map fun i => ⟨BitVec.ofNat 256 i⟩

theorem serialize_manyCoins {n : ℕ} (h : n < 2 ^ 64) :
    ∃ bytes, snapshotCodec.serialize (.utxoSnapshot (manyCoins n) 0 zeroHash) = some bytes ∧
      bytes.length = 52 + 40 * n := by
  have hn : (manyCoins n).length = n := by
    rw [manyCoins, List.length_map, List.length_range]
  refine ⟨_, if_pos (by rwa [hn]), ?_⟩
  rw [List.length_append, length_toLeBytes, length_snapshotBytes, hn]
  omega

/-- The request and a small answer. -/
theorem smallSnapshot_read : ∃ stream,
    [.getUtxoSnapshot, .utxoSnapshot (manyCoins 2) 0 zeroHash].foldlM (writeMessage snapshotCodec) [] =
        some stream ∧
      readMessages snapshotCodec 2 stream =
        [some .getUtxoSnapshot, some (.utxoSnapshot (manyCoins 2) 0 zeroHash)] := by
  obtain ⟨bytes, hbytes, hlength⟩ := serialize_manyCoins (n := 2) (by decide)
  have hwritten : ∃ stream, [.getUtxoSnapshot, .utxoSnapshot (manyCoins 2) 0 zeroHash].foldlM
      (writeMessage snapshotCodec) [] = some stream := ⟨_, rfl⟩
  obtain ⟨stream, hwritten⟩ := hwritten
  refine ⟨stream, hwritten, (read_written_iff snapshotCodec_laws hwritten).mpr ?_⟩
  rw [List.forall_mem_cons, List.forall_mem_singleton]
  refine ⟨?_, ?_⟩
  · rintro bytes' ⟨⟩
    decide
  · intro bytes' hbytes'
    cases hbytes.symm.trans hbytes'
    rw [hlength]
    decide

/-- The answer of a node with 838 861 coins is written, and not read. -/
theorem largeSnapshot_lost : BincodeLaws snapshotCodec ∧ ∃ stream,
    [.utxoSnapshot (manyCoins 838861) 0 zeroHash].foldlM (writeMessage snapshotCodec) [] = some stream ∧
      readMessages snapshotCodec 1 stream ≠ [some (.utxoSnapshot (manyCoins 838861) 0 zeroHash)] := by
  obtain ⟨bytes, hbytes, hlength⟩ := serialize_manyCoins (n := 838861) (by decide)
  refine ⟨snapshotCodec_laws, frame bytes, ?_, ?_⟩
  · simp only [List.foldlM_cons, List.foldlM_nil, writeMessage, hbytes]
    rfl
  · intro hread
    have hfirst : (readMessage snapshotCodec (frame bytes ++ [])).1 =
        some (.utxoSnapshot (manyCoins 838861) 0 zeroHash) := by
      rw [List.append_nil]
      exact (List.cons.inj hread).1
    have hfits := le_of_readMessage snapshotCodec_laws hbytes hfirst
    rw [hlength] at hfits
    exact absurd hfits (by decide)

end Devnet

end Haze
