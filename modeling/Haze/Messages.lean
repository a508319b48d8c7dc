import Haze.Devnet
import Haze.Market

/-!
# What an identity key signs

Eleven kinds of messages are signed with the identity key of a wallet, by one signature scheme that
knows nothing of kinds. A signature is good for one kind only because no message is of two kinds. Nine
formats begin with a domain of their own; a name registration is the bare name, and a mint begins with
the bare asset id. What keeps these two apart from the others and from each other is the alphabet of
identifiers: it has no `H`, and no byte that tags an optional field.
-/

namespace Haze

variable {P : Crypto}

/-! ## Bytes of fields

Two texts with the same bytes are equal, and so are two numbers of one width. -/

theorem asBytes_injective : Function.Injective asBytes := by
  intro s s' h
  apply String.toByteArray_inj.mp
  exact ByteArray.ext (Array.toList_inj.mp h)

/-- A fixed-width integer is read back from its bytes. -/
theorem toLeBytes_inj_of_lt {w i j : ℕ} (hi : i < 256 ^ w) (hj : j < 256 ^ w)
    (h : toLeBytes w i = toLeBytes w j) : i = j := by
  have hnat := congrArg Devnet.bytesNat h
  rwa [Devnet.bytesNat_toLeBytes, Devnet.bytesNat_toLeBytes, Nat.mod_eq_of_lt hi,
    Nat.mod_eq_of_lt hj] at hnat

/-! ## Bytes of identifiers

An identifier that passed its check has lower-case letters, digits and two punctuation marks only. So none
of its bytes is a tag byte, and none of them is the `H` that a domain begins with. -/

theorem asBytes_eq_flatMap (s : String) : asBytes s = s.toList.flatMap String.utf8EncodeChar := by
  rw [asBytes, ← String.utf8Encode_toList, List.utf8Encode, List.toList_data_toByteArray]

theorem asBytes_append (s t : String) : asBytes (s ++ t) = asBytes s ++ asBytes t := by
  simp [asBytes_eq_flatMap]

/-- The byte of an identifier character is neither a tag of an optional field nor the `H` that every
domain begins with. -/
theorem utf8EncodeChar_of_idChar {c : Char} (hc : idChar c = true) :
    ∃ b : UInt8, String.utf8EncodeChar c = [b] ∧ 1 < b ∧ b ≠ 72 := by
  have hrange : 45 ≤ c.toNat ∧ c.toNat ≤ 122 ∧ c.toNat ≠ 72 := by
    simp only [idChar, Bool.or_eq_true, Bool.and_eq_true, decide_eq_true_eq, beq_iff_eq] at hc
    rcases hc with ((⟨hlo, hhi⟩ | ⟨hlo, hhi⟩) | rfl) | rfl
    · have hlo : 97 ≤ c.toNat := hlo
      have hhi : c.toNat ≤ 122 := hhi
      omega
    · have hlo : 48 ≤ c.toNat := hlo
      have hhi : c.toNat ≤ 57 := hhi
      omega
    · decide
    · decide
  have henc : String.utf8EncodeChar c = [UInt8.ofNat c.toNat] :=
    if_pos (hrange.2.1.trans (by decide))
  have hnat : (UInt8.ofNat c.toNat).toNat = c.toNat := UInt8.toNat_ofNat_of_lt' (by
    show c.toNat < 256
    omega)
  refine ⟨_, henc, ?_, ?_⟩
  · rw [UInt8.lt_iff_toNat_lt, hnat]
    exact Nat.lt_of_lt_of_le (by decide) hrange.1
  · intro h
    rw [← UInt8.toNat_inj, hnat] at h
    exact hrange.2.2 h

/-- What the two formats without a domain have in front. -/
structure IdBytes (bs : List UInt8) : Prop where
  ne_nil : bs ≠ []
  noTag : ∀ b ∈ bs, 1 < b
  noDomain : ∀ b ∈ bs, b ≠ 72

theorem idBytes_of_validateId {ε : Type} {minLength maxLength : ℕ}
    {tooShort tooLong invalidCharacters : ε} {id : String} (hmin : 0 < minLength)
    (hid : validateId minLength maxLength tooShort tooLong invalidCharacters id = .ok ()) :
    IdBytes (asBytes id) := by
  -- not empty, and of allowed characters
  have hshape : minLength ≤ (asBytes id).length ∧ ∀ c ∈ id.toList, idChar c = true := by
    unfold validateId at hid
    split at hid
    · cases hid
    · next hlo =>
      split at hid
      · cases hid
      · split at hid
        · cases hid
        · next hchars => exact ⟨Nat.le_of_not_lt hlo, by simpa using hchars⟩
  -- each of which is one byte long in UTF-8
  have hbyte : ∀ b ∈ asBytes id, 1 < b ∧ b ≠ 72 := by
    intro b hb
    rw [asBytes_eq_flatMap, List.mem_flatMap] at hb
    obtain ⟨c, hc, hb⟩ := hb
    obtain ⟨b', henc, hbyte⟩ := utf8EncodeChar_of_idChar (hshape.2 c hc)
    rw [henc, List.mem_singleton] at hb
    rwa [hb]
  refine ⟨?_, fun b hb => (hbyte b hb).1, fun b hb => (hbyte b hb).2⟩
  exact List.ne_nil_of_length_pos (Nat.lt_of_lt_of_le hmin hshape.1)

theorem idBytes_of_validateName {name : String} (h : validateName name = .ok ()) :
    IdBytes (asBytes name) := by
  unfold validateName at h
  cases hid : validateId minNameLength maxNameLength NameError.tooShort .tooLong .invalidCharacters
      name with
  | error e =>
      rw [hid] at h
      cases h
  | ok u => exact idBytes_of_validateId (by decide) hid

theorem idBytes_of_validateAssetId {assetId : String} (h : validateAssetId assetId = .ok ()) :
    IdBytes (asBytes assetId) :=
  idBytes_of_validateId (by decide) h

/-! ## The eleven kinds

What is signed in the whole repository, in one type: a kind, and the arguments of its function. -/

inductive MessageKind where
  | registerName
  | transferName
  | mintAsset
  | mintApproval
  | transferAsset
  | launchCollection
  | listing
  | cancelListing
  | allowlist
  | inboxPost
  | inboxPoll
  deriving DecidableEq

/-- A message with the fields it is built from. -/
inductive IdentityMessage (P : Crypto) where
  | registerName (name : String)
  | transferName (name : String) (newOwnerPubkey newResolvesTo : Commitment P)
  | mintAsset (assetId : String) (metadata : List UInt8) (collectionId : Option String)
      (phaseIndex : Option UInt32) (requiredKernelExcess : Option (Commitment P))
  | mintApproval (assetId collectionId : String) (phaseIndex : UInt32)
      (requiredKernelExcess ownerPubkey : Commitment P)
  | transferAsset (assetId : String) (newOwnerPubkey : Commitment P)
      (requiredKernelExcess requiredRoyaltyKernelExcess : Option (Commitment P))
  | launchCollection (collectionId : String) (creatorPubkey : Commitment P) (name symbol : String)
      (metadata : List UInt8) (phases : List MintPhase) (royaltyBps : UInt16)
  | listing (assetId : String) (sellerPubkey : Commitment P) (price listedAt : UInt64)
  | cancelListing (assetId : String) (sellerPubkey : Commitment P)
  | allowlist (collectionId : String) (phaseIndex : UInt32) (pubkeys : List (Commitment P))
      (publishedAt : UInt64)
  | inboxPost (toPubkeyHex kind payloadJson : String)
  | inboxPoll (pubkeyHex : String) (timestamp : UInt64)

namespace IdentityMessage

def kind : IdentityMessage P → MessageKind
  | registerName .. => .registerName
  | transferName .. => .transferName
  | mintAsset .. => .mintAsset
  | mintApproval .. => .mintApproval
  | transferAsset .. => .transferAsset
  | launchCollection .. => .launchCollection
  | listing .. => .listing
  | cancelListing .. => .cancelListing
  | allowlist .. => .allowlist
  | inboxPost .. => .inboxPost
  | inboxPoll .. => .inboxPoll

/-- The bytes that are signed. -/
def bytes : IdentityMessage P → List UInt8
  | registerName name => RegisterNameOp.signingMessage name
  | transferName name owner resolvesTo => TransferNameOp.signingMessage name owner resolvesTo
  | mintAsset assetId metadata collectionId phaseIndex excess =>
      MintAssetOp.signingMessage assetId metadata collectionId phaseIndex excess
  | mintApproval assetId collectionId phaseIndex excess owner =>
      MintAssetOp.collectionApprovalSigningMessage assetId collectionId phaseIndex excess owner
  | transferAsset assetId owner excess royaltyExcess =>
      TransferAssetOp.signingMessage assetId owner excess royaltyExcess
  | launchCollection collectionId creator name symbol metadata phases royaltyBps =>
      LaunchCollectionOp.signingMessage collectionId creator name symbol metadata phases royaltyBps
  | listing assetId seller price listedAt => Listing.signingMessage assetId seller price listedAt
  | cancelListing assetId seller => cancelSigningMessage assetId seller
  | allowlist collectionId phaseIndex pubkeys publishedAt =>
      AllowlistEntry.signingMessage collectionId phaseIndex pubkeys publishedAt
  | inboxPost toPubkeyHex kind payloadJson => inboxPostSigningMessage toPubkeyHex kind payloadJson
  | inboxPoll pubkeyHex timestamp => inboxPollSigningMessage pubkeyHex timestamp

/-- The names and ids of the message have passed their checks. -/
def Valid : IdentityMessage P → Prop
  | registerName name => validateName name = .ok ()
  | transferName name .. => validateName name = .ok ()
  | mintAsset assetId _ collectionId .. =>
      validateAssetId assetId = .ok () ∧ ∀ id ∈ collectionId, validateCollectionId id = .ok ()
  | mintApproval assetId collectionId .. =>
      validateAssetId assetId = .ok () ∧ validateCollectionId collectionId = .ok ()
  | transferAsset assetId .. => validateAssetId assetId = .ok ()
  | launchCollection collectionId .. => validateCollectionId collectionId = .ok ()
  | listing assetId .. => validateAssetId assetId = .ok ()
  | cancelListing assetId .. => validateAssetId assetId = .ok ()
  | allowlist collectionId .. => validateCollectionId collectionId = .ok ()
  | inboxPost .. => True
  | inboxPoll .. => True

end IdentityMessage

/-! ## Domains

Nine of the kinds begin with a text of their own. The other two, registrations and mints, are told apart by
what an identifier cannot contain. -/

/-- The text a format begins with, for the formats that have one. -/
def MessageKind.domain : MessageKind → Option String
  | .registerName => none
  | .transferName => some "HazeNameTransfer:"
  | .mintAsset => none
  | .mintApproval => some "HazeCollectionMintApproval:"
  | .transferAsset => some "HazeAssetTransfer:"
  | .launchCollection => some "HazeLaunchCollection:"
  | .listing => some "HazeMarketplaceListing:"
  | .cancelListing => some "HazeMarketplaceCancelListing:"
  | .allowlist => some "HazeAllowlistPublish:"
  | .inboxPost => some "HazeInboxMessage:"
  | .inboxPoll => some "HazeInboxPoll:"

/-- Every domain begins with an `H`, and none begins with another. -/
theorem MessageKind.domain_spec (k k' : MessageKind) (d d' : String) (hd : k.domain = some d)
    (hd' : k'.domain = some d') :
    (asBytes d).head? = some 72 ∧ (asBytes d <+: asBytes d' → k = k') := by
  cases k <;> cases hd <;> cases k' <;> cases hd' <;> decide +kernel

namespace IdentityMessage

theorem domain_isPrefix (m : IdentityMessage P) {d : String} (hd : m.kind.domain = some d) :
    asBytes d <+: m.bytes := by
  cases m with
  | registerName => cases hd
  | mintAsset => cases hd
  | inboxPost toPubkeyHex kind payloadJson =>
      cases hd
      simp only [bytes, inboxPostSigningMessage, asBytes_append, List.append_assoc]
      exact List.prefix_append _ _
  | inboxPoll pubkeyHex timestamp =>
      cases hd
      simp only [bytes, inboxPollSigningMessage, asBytes_append, List.append_assoc]
      exact List.prefix_append _ _
  | _ =>
      cases hd
      simp only [bytes, TransferNameOp.signingMessage, MintAssetOp.collectionApprovalSigningMessage,
        TransferAssetOp.signingMessage, LaunchCollectionOp.signingMessage, Listing.signingMessage,
        cancelSigningMessage, AllowlistEntry.signingMessage, List.append_assoc]
      exact List.prefix_append _ _

/-- A format without a domain begins with an identifier. -/
theorem head_of_no_domain (m : IdentityMessage P) (hm : m.Valid) (hd : m.kind.domain = none) :
    m.bytes.head? ≠ some 72 := by
  have hid : ∃ id, asBytes id <+: m.bytes ∧ IdBytes (asBytes id) := by
    cases m with
    | registerName name => exact ⟨name, List.prefix_rfl, idBytes_of_validateName hm⟩
    | mintAsset assetId metadata collectionId phaseIndex excess =>
        refine ⟨assetId, ?_, idBytes_of_validateAssetId hm.1⟩
        simp only [bytes, MintAssetOp.signingMessage, List.append_assoc]
        exact List.prefix_append _ _
    | _ => cases hd
  obtain ⟨id, ⟨rest, hbytes⟩, hid⟩ := hid
  intro hhead
  obtain ⟨b, bs, hb⟩ := List.exists_cons_of_ne_nil hid.ne_nil
  rw [← hbytes, hb, List.cons_append, List.head?_cons, Option.some.injEq] at hhead
  exact hid.noDomain b (hb ▸ List.mem_cons_self) hhead

/-- The optional collection of a mint puts a tag into the message. -/
theorem tag_mem_mintAsset (assetId : String) (metadata : List UInt8) (collectionId : Option String)
    (phaseIndex : Option UInt32) (excess : Option (Commitment P)) :
    ∃ b ∈ (mintAsset assetId metadata collectionId phaseIndex excess).bytes, ¬ 1 < b := by
  cases collectionId with
  | none => exact ⟨0, by simp [bytes, MintAssetOp.signingMessage], by decide⟩
  | some id => exact ⟨1, by simp [bytes, MintAssetOp.signingMessage], by decide⟩

/-- A name is no mint. -/
theorem registerName_ne_mintAsset {name : String}
    (hname : (registerName name : IdentityMessage P).Valid) (assetId : String)
    (metadata : List UInt8) (collectionId : Option String) (phaseIndex : Option UInt32)
    (excess : Option (Commitment P)) :
    (registerName name : IdentityMessage P).bytes ≠
      (mintAsset assetId metadata collectionId phaseIndex excess).bytes := by
  intro heq
  obtain ⟨b, hb, htag⟩ := tag_mem_mintAsset assetId metadata collectionId phaseIndex excess
  rw [← heq] at hb
  exact htag ((idBytes_of_validateName hname).noTag b hb)

/-- A message that begins with a domain has that kind. -/
theorem kind_of_domain_isPrefix {m : IdentityMessage P} (hm : m.Valid) {k : MessageKind} {d : String}
    (hk : k.domain = some d) (hd : asBytes d <+: m.bytes) : m.kind = k := by
  cases hdom : m.kind.domain with
  | none =>
      -- the first byte of `d` would be the first byte of an identifier
      obtain ⟨rest, hrest⟩ := hd
      have hhead := (k.domain_spec k d d hk hk).1
      refine absurd ?_ (head_of_no_domain m hm hdom)
      rw [← hrest, List.head?_append, hhead, Option.some_or]
  | some d' =>
      -- of two prefixes of one message one is a prefix of the other
      rcases List.prefix_or_prefix_of_prefix (domain_isPrefix m hdom) hd with h | h
      · exact (m.kind.domain_spec k d' d hdom hk).2 h
      · exact ((k.domain_spec m.kind d d' hk hdom).2 h).symm

/-- **Domain separation.** Two messages of different kinds have different bytes. -/
theorem bytes_ne_of_kind_ne {m m' : IdentityMessage P} (hm : m.Valid) (hm' : m'.Valid)
    (hkind : m.kind ≠ m'.kind) : m.bytes ≠ m'.bytes := by
  intro heq
  cases hd : m.kind.domain with
  | some d => exact hkind (kind_of_domain_isPrefix hm' hd (heq ▸ domain_isPrefix m hd)).symm
  | none =>
      cases hd' : m'.kind.domain with
      | some d => exact hkind (kind_of_domain_isPrefix hm hd' (heq ▸ domain_isPrefix m' hd'))
      | none =>
          -- the two formats without a domain
          cases m <;> cases hd <;> cases m' <;> cases hd'
          · exact hkind rfl
          · exact registerName_ne_mintAsset hm _ _ _ _ _ heq
          · exact registerName_ne_mintAsset hm' _ _ _ _ _ heq.symm
          · exact hkind rfl

/-- A registration of a name and a mint under that name, with no metadata and no options. -/
theorem bytes_ne_alice :
    (registerName "alice" : IdentityMessage Devnet.crypto).bytes ≠
      (mintAsset "alice" [] none none none : IdentityMessage Devnet.crypto).bytes := by
  have hname : validateName "alice" = .ok () := by decide +kernel
  have hasset : validateAssetId "alice" = .ok () := by decide +kernel
  exact bytes_ne_of_kind_ne hname ⟨hasset, fun _ h => nomatch h⟩ (by decide)

end IdentityMessage

end Haze
