import Haze.Merkle
import Haze.Messages

/-!
# What the signature of a mint binds (`assets.rs`)

`MintAssetOp::signing_message` puts the asset id, the metadata and the three optional fields one after
another, each option behind a tag byte. Neither the asset id nor the metadata nor the collection id
carries its length, so the message does not say where one of them ends: a run of bytes behind such an end
may as well belong in front of it. This is the only thing the message leaves open.
-/

namespace Haze

variable {P : Crypto}

/-- The arguments of `MintAssetOp::signing_message`. -/
@[ext] structure MintTerms (P : Crypto) where
  assetId : String
  metadata : List UInt8
  collectionId : Option String
  phaseIndex : Option UInt32
  requiredKernelExcess : Option (Commitment P)
  deriving DecidableEq

namespace MintTerms

/-- The bytes that are signed. -/
def message (t : MintTerms P) : List UInt8 :=
  MintAssetOp.signingMessage t.assetId t.metadata t.collectionId t.phaseIndex t.requiredKernelExcess

/-- What `validate_standalone` checks of the terms. -/
structure Valid (t : MintTerms P) : Prop where
  assetId : validateAssetId t.assetId = .ok ()
  metadata : t.metadata.length ≤ maxMetadataBytes
  paired : t.collectionId.isSome = t.phaseIndex.isSome

/-- The part of the message behind the collection id. -/
def afterCollection (t : MintTerms P) : List UInt8 :=
  (match t.phaseIndex with | some i => 1 :: toLeBytes 4 i.toNat | none => [0])
    ++ optionBytes t.requiredKernelExcess

/-- The part of the message behind the metadata. -/
def afterMetadata (t : MintTerms P) : List UInt8 :=
  (match t.collectionId with | some id => 1 :: asBytes id | none => [0]) ++ t.afterCollection

theorem message_eq (t : MintTerms P) :
    t.message = asBytes t.assetId ++ (t.metadata ++ t.afterMetadata) := by
  unfold message MintAssetOp.signingMessage afterMetadata afterCollection
  cases t.collectionId <;> cases t.phaseIndex <;> simp only [List.append_assoc]

/-- The first field of `t` and `t'` that ends at different places ends later in `t'`, by a run of bytes
that `t` has directly behind it. -/
inductive Shifted (t t' : MintTerms P) : Prop where
  /-- The metadata of `t` begins with the bytes by which the asset id of `t'` is longer. -/
  | assetId (run rest : List UInt8) (hrun : run ≠ [])
      (hid : asBytes t'.assetId = asBytes t.assetId ++ run)
      (hmetadata : t.metadata = run ++ rest)
      (hrest : rest ++ t.afterMetadata = t'.metadata ++ t'.afterMetadata)
  /-- The tagged fields of `t` begin with the bytes by which the metadata of `t'` is longer. -/
  | metadata (run : List UInt8) (hrun : run ≠ []) (hid : t'.assetId = t.assetId)
      (hmetadata : t'.metadata = t.metadata ++ run)
      (hrest : t.afterMetadata = run ++ t'.afterMetadata)
  /-- The phase and the excess of `t` begin with the bytes by which the collection id of `t'` is
  longer. -/
  | collectionId (run : List UInt8) (id id' : String) (hrun : run ≠ []) (hid : t'.assetId = t.assetId)
      (hmetadata : t'.metadata = t.metadata) (hcollection : t.collectionId = some id)
      (hcollection' : t'.collectionId = some id') (hlonger : asBytes id' = asBytes id ++ run)
      (hrest : t.afterCollection = run ++ t'.afterCollection)

/-! ## Shifted terms

Such terms are different and have one message. -/

theorem Shifted.message_eq {t t' : MintTerms P} (h : Shifted t t') : t.message = t'.message := by
  rw [MintTerms.message_eq, MintTerms.message_eq]
  cases h with
  | assetId run rest hrun hid hmetadata hrest =>
      rw [hid, hmetadata, ← hrest]
      simp only [List.append_assoc]
  | metadata run hrun hid hmetadata hrest =>
      rw [hid, hmetadata, hrest]
      simp only [List.append_assoc]
  | collectionId run id id' hrun hid hmetadata hcollection hcollection' hlonger hrest =>
      rw [hid, hmetadata, afterMetadata, afterMetadata, hcollection, hcollection', hrest]
      simp only [hlonger, List.cons_append, List.append_assoc]

theorem Shifted.ne {t t' : MintTerms P} (h : Shifted t t') : t ≠ t' := by
  rintro rfl
  cases h with
  | assetId run rest hrun hid => exact hrun (List.self_eq_append_right.mp hid)
  | metadata run hrun hid hmetadata => exact hrun (List.self_eq_append_right.mp hmetadata)
  | collectionId run id id' hrun hid hmetadata hcollection hcollection' hlonger =>
      cases hcollection.symm.trans hcollection'
      exact hrun (List.self_eq_append_right.mp hlonger)

/-! ## Reading the fields back

The fixed fields can be read back, each behind the end of the one before. Where an end is open, the message
is cut in two ways. -/

theorem optionBytes_injective : Function.Injective (optionBytes (P := P)) := by
  intro c c' h
  cases c <;> cases c' <;> grind [optionBytes, Commitment.toBytes_injective.eq_iff]

/-- Behind the collection id every field has its place. -/
theorem afterCollection_inj {t t' : MintTerms P} (h : t.afterCollection = t'.afterCollection) :
    t.phaseIndex = t'.phaseIndex ∧ t.requiredKernelExcess = t'.requiredKernelExcess := by
  unfold afterCollection at h
  cases hi : t.phaseIndex with
  | none =>
      cases hj : t'.phaseIndex with
      -- the tag of the phase is the same on both sides, and with it the length of the field
      | none =>
          rw [hi, hj] at h
          exact ⟨rfl, optionBytes_injective (List.append_cancel_left h)⟩
      | some j =>
          rw [hi, hj] at h
          cases (List.cons.inj h).1
  | some i =>
      cases hj : t'.phaseIndex with
      | none =>
          rw [hi, hj] at h
          cases (List.cons.inj h).1
      | some j =>
          rw [hi, hj] at h
          have hlen : (1 :: toLeBytes 4 i.toNat).length = (1 :: toLeBytes 4 j.toNat).length := by
            simp only [List.length_cons, Devnet.length_toLeBytes]
          obtain ⟨hphase, hexcess⟩ := List.append_inj h hlen
          have hindex : i = j :=
            UInt32.toNat_inj.mp (toLeBytes_inj_of_lt i.toNat_lt j.toNat_lt (List.cons.inj hphase).2)
          exact ⟨congrArg some hindex, optionBytes_injective hexcess⟩

/-- Behind the metadata only the end of the collection id is open. -/
theorem shifted_of_afterMetadata_eq {t t' : MintTerms P} (hid : t.assetId = t'.assetId)
    (hmetadata : t.metadata = t'.metadata) (h : t.afterMetadata = t'.afterMetadata) :
    t = t' ∨ Shifted t t' ∨ Shifted t' t := by
  unfold afterMetadata at h
  cases hc : t.collectionId with
  | none =>
      cases hc' : t'.collectionId with
      | none =>
          rw [hc, hc'] at h
          obtain ⟨hphase, hexcess⟩ := afterCollection_inj (List.append_cancel_left h)
          exact .inl (MintTerms.ext hid hmetadata (hc.trans hc'.symm) hphase hexcess)
      -- one has a collection and the other has none: the tags differ
      | some id' =>
          rw [hc, hc'] at h
          cases (List.cons.inj h).1
  | some id =>
      cases hc' : t'.collectionId with
      | none =>
          rw [hc, hc'] at h
          cases (List.cons.inj h).1
      | some id' =>
          rw [hc, hc'] at h
          rcases Encoding.cut_cases (List.cons.inj h).2 with
            ⟨hsame, hrest⟩ | ⟨run, hrun, hlonger, hrest⟩ | ⟨run, hrun, hlonger, hrest⟩
          -- the ids end at one place
          · have hcollection : t.collectionId = t'.collectionId := by
              rw [hc, hc', asBytes_injective hsame]
            obtain ⟨hphase, hexcess⟩ := afterCollection_inj hrest
            exact .inl (MintTerms.ext hid hmetadata hcollection hphase hexcess)
          -- or one of them is longer
          · right; left
            exact .collectionId run id id' hrun hid.symm hmetadata.symm hc hc' hlonger hrest
          · right; right
            exact .collectionId run id' id hrun hid hmetadata hc' hc hlonger hrest

/-- The bytes by which a valid id is longer cannot reach beyond the metadata: there is a tag. -/
theorem shifted_of_longer_assetId {t t' : MintTerms P} (ht' : t'.Valid) {run : List UInt8}
    (hrun : run ≠ []) (hid : asBytes t'.assetId = asBytes t.assetId ++ run)
    (hrest : t.metadata ++ t.afterMetadata = run ++ (t'.metadata ++ t'.afterMetadata)) :
    Shifted t t' := by
  have htag : ∀ b ∈ run, 1 < b := by
    intro b hb
    apply (idBytes_of_validateAssetId ht'.assetId).noTag
    rw [hid]
    exact List.mem_append_right _ hb
  rcases List.append_eq_append_iff.mp hrest with ⟨beyond, hbeyond, hbehind⟩ | ⟨rest, hmetadata, hbehind⟩
  · cases beyond with
    | nil => exact .assetId run [] hrun hid (by simp [hbeyond]) (by simpa using hbehind)
    | cons b beyond =>
        -- the first byte behind the metadata
        have hb : 1 < b := htag b (by simp [hbeyond])
        have hhead : t.afterMetadata.head? = some b := by simp [hbehind]
        unfold afterMetadata at hhead
        cases hc : t.collectionId with
        | none =>
            rw [hc] at hhead
            cases hhead
            exact absurd hb (by decide)
        | some id =>
            rw [hc] at hhead
            cases hhead
            exact absurd hb (by decide)
  · exact .assetId run rest hrun hid hmetadata hbehind.symm

theorem eq_or_shifted_of_message_eq {t t' : MintTerms P} (ht : t.Valid) (ht' : t'.Valid)
    (h : t.message = t'.message) : t = t' ∨ Shifted t t' ∨ Shifted t' t := by
  rw [message_eq, message_eq] at h
  rcases Encoding.cut_cases h with ⟨hid, hrest⟩ | ⟨run, hrun, hid, hrest⟩ | ⟨run, hrun, hid, hrest⟩
  · have hid := asBytes_injective hid
    rcases Encoding.cut_cases hrest with
      ⟨hmetadata, hrest⟩ | ⟨run, hrun, hmetadata, hrest⟩ | ⟨run, hrun, hmetadata, hrest⟩
    · exact shifted_of_afterMetadata_eq hid hmetadata hrest
    · exact .inr (.inl (.metadata run hrun hid.symm hmetadata hrest))
    · exact .inr (.inr (.metadata run hrun hid hmetadata hrest))
  · exact .inr (.inl (shifted_of_longer_assetId ht' hrun hid hrest))
  · exact .inr (.inr (shifted_of_longer_assetId ht hrun hid hrest))

/-- **What a mint signature binds.** Of two valid tuples of terms, one is bound by the signature of the
other unless they are each other's with the end of a field moved. -/
theorem eq_of_message_eq_iff (t t' : MintTerms P) (ht : t.Valid) (ht' : t'.Valid) :
    (t.message = t'.message → t = t') ↔ ¬ Shifted t t' ∧ ¬ Shifted t' t := by
  apply Encoding.binds_iff
  · exact fun _ _ h => ⟨h.message_eq, h.ne⟩
  · exact eq_or_shifted_of_message_eq ht ht'

/-- Fields of the same lengths leave nothing to move. -/
theorem not_shifted_of_lengths {t t' : MintTerms P}
    (hid : (asBytes t.assetId).length = (asBytes t'.assetId).length)
    (hmetadata : t.metadata.length = t'.metadata.length)
    (hcollection : t.collectionId.map (fun id => (asBytes id).length) =
      t'.collectionId.map fun id => (asBytes id).length) : ¬ Shifted t t' := by
  intro h
  cases h with
  | assetId run rest hrun hlonger =>
      rw [hlonger, List.length_append, Nat.left_eq_add, List.length_eq_zero_iff] at hid
      exact hrun hid
  | metadata run hrun _ hlonger =>
      rw [hlonger, List.length_append, Nat.left_eq_add, List.length_eq_zero_iff] at hmetadata
      exact hrun hmetadata
  | collectionId run id id' hrun _ _ hsome hsome' hlonger =>
      rw [hsome, hsome', Option.map_some, Option.map_some, Option.some.injEq, hlonger, List.length_append,
        Nat.left_eq_add, List.length_eq_zero_iff] at hcollection
      exact hrun hcollection

/-- A mint outside any collection and against no payment. -/
def plain (assetId : String) (metadata : List UInt8) : MintTerms Devnet.crypto :=
  ⟨assetId, metadata, none, none, none⟩

theorem plain_valid {assetId : String} {metadata : List UInt8}
    (hid : validateAssetId assetId = .ok ()) (hmetadata : metadata.length ≤ maxMetadataBytes) :
    (plain assetId metadata).Valid :=
  ⟨hid, hmetadata, rfl⟩

/-- The signature of a mint of `abc` with metadata `d` is one of a mint of `abcd`. -/
theorem message_plain_abcd :
    ∃ t t' : MintTerms Devnet.crypto, t.Valid ∧ t'.Valid ∧ t.message = t'.message ∧ t ≠ t' :=
  ⟨plain "abc" (asBytes "d"), plain "abcd" [], plain_valid (by decide +kernel) (by decide +kernel),
    plain_valid (by decide +kernel) (by decide), by decide +kernel, by decide +kernel⟩

/-- Equal lengths leave nothing to move. -/
theorem message_plain_abd :
    (plain "abc" []).Valid ∧ (plain "abd" []).Valid ∧
      ((plain "abc" []).message = (plain "abd" []).message → plain "abc" [] = plain "abd" []) := by
  have habc : (plain "abc" []).Valid := plain_valid (by decide +kernel) (by decide)
  have habd : (plain "abd" []).Valid := plain_valid (by decide +kernel) (by decide)
  exact ⟨habc, habd, (eq_of_message_eq_iff _ _ habc habd).mpr
    ⟨not_shifted_of_lengths rfl rfl rfl, not_shifted_of_lengths rfl rfl rfl⟩⟩

end MintTerms

end Haze
