import Haze.Registries

/-!
# Listings, allowlists and the inbox (`marketplace.rs`, `allowlist.rs`, `api/src/inbox.rs`)

Three services beside consensus that authenticate what they are given with the identity key of a
wallet. Listings and allowlists are gossiped and kept in memory, one per asset and one per phase of a
collection; of the inbox only the two messages its callers sign are here.
-/

namespace Haze

variable {P : Crypto}

/-! ## Listings (`marketplace.rs`)

A listing is signed by the owner of the asset. It moves nothing: the sale itself is a transfer with a
payment. -/

structure Listing (P : Crypto) where
  assetId : String
  sellerPubkey : Commitment P
  price : UInt64
  listedAt : UInt64
  signature : Signature P
  deriving DecidableEq

inductive ListingError where
  | invalidSignature
  | notCurrentOwner
  deriving DecidableEq

def cancelSigningMessage (assetId : String) (sellerPubkey : Commitment P) : List UInt8 :=
  asBytes "HazeMarketplaceCancelListing:" ++ asBytes assetId ++ sellerPubkey.toBytes

namespace Listing

def signingMessage (assetId : String) (sellerPubkey : Commitment P) (price listedAt : UInt64) :
    List UInt8 :=
  asBytes "HazeMarketplaceListing:" ++ asBytes assetId ++ sellerPubkey.toBytes
    ++ toLeBytes 8 price.toNat ++ toLeBytes 8 listedAt.toNat

variable (l : Listing P)

def validateStandalone : Except ListingError Unit :=
  let msg := signingMessage l.assetId l.sellerPubkey l.price l.listedAt
  if !l.signature.verify msg l.sellerPubkey then .error .invalidSignature else .ok ()

def validateAgainstRegistry (assetRegistry : KeyedMap String (AssetRecord P)) :
    Except ListingError Unit :=
  match assetRegistry.lookup l.assetId with
  | some record => if record.ownerPubkey = l.sellerPubkey then .ok () else .error .notCurrentOwner
  | none => .error .notCurrentOwner

end Listing

/-- `MarketplaceState`: one listing per asset. -/
abbrev MarketplaceState (P : Crypto) := KeyedMap String (Listing P)

/-- `MarketplaceState::add_or_replace`. -/
def MarketplaceState.addOrReplace (m : MarketplaceState P) (listing : Listing P) :
    MarketplaceState P :=
  m.insert listing.assetId listing

/-- `MarketplaceState::cancel`. -/
def MarketplaceState.cancel (m : MarketplaceState P) (assetId : String)
    (requesterPubkey : Commitment P) : MarketplaceState P × Bool :=
  match m.lookup assetId with
  | some existing =>
      if existing.sellerPubkey = requesterPubkey then (m.erase assetId, true) else (m, false)
  | none => (m, false)

/-- `MarketplaceState::clear_stale`. -/
def MarketplaceState.clearStale (m : MarketplaceState P) (touchedAssets : List String)
    (assetRegistry : KeyedMap String (AssetRecord P)) : MarketplaceState P :=
  let listings : MarketplaceState P := KeyedMap.eraseAll m touchedAssets
  listings.retain fun assetId =>
    (assetRegistry.lookup assetId).map AssetRecord.ownerPubkey
      = (listings.lookup assetId).map Listing.sellerPubkey

section

variable {m : MarketplaceState P} {assetId assetId' : String} {listing : Listing P}

theorem MarketplaceState.lookup_cancel {requesterPubkey : Commitment P}
    (h : (m.cancel assetId requesterPubkey).1.lookup assetId' = some listing) :
    m.lookup assetId' = some listing := by
  unfold cancel at h
  split at h
  · split at h
    · by_cases hid : assetId' = assetId
      · rw [hid, Finmap.lookup_erase] at h
        cases h
      · rwa [Finmap.lookup_erase_ne hid] at h
    · exact h
  · exact h

/-- The listings that a sweep leaves. -/
theorem MarketplaceState.lookup_clearStale {touchedAssets : List String}
    {assetRegistry : KeyedMap String (AssetRecord P)} :
    (m.clearStale touchedAssets assetRegistry).lookup assetId = some listing ↔
      m.lookup assetId = some listing ∧ assetId ∉ touchedAssets ∧
        (assetRegistry.lookup assetId).map AssetRecord.ownerPubkey = some listing.sellerPubkey := by
  unfold clearStale
  rw [KeyedMap.lookup_retain]
  by_cases htouched : assetId ∈ touchedAssets
  · simp [KeyedMap.lookup_eraseAll_of_mem htouched, htouched]
  · rw [KeyedMap.lookup_eraseAll_of_notMem htouched]
    constructor
    · intro h
      split at h
      next hsame =>
        rw [h, Option.map_some, decide_eq_true_eq] at hsame
        exact ⟨h, htouched, hsame⟩
      next => cases h
    · rintro ⟨h, -, hsame⟩
      rw [if_pos (by simp [h, hsame]), h]

end

/-! ## Allowlists (`allowlist.rs`)

An allowlist is published by the creator of a collection for one of its phases. The chain has its Merkle
root only. -/

structure AllowlistEntry (P : Crypto) where
  collectionId : String
  phaseIndex : UInt32
  creatorPubkey : Commitment P
  pubkeys : List (Commitment P)
  publishedAt : UInt64
  signature : Signature P
  deriving DecidableEq

inductive AllowlistError where
  | invalidSignature
  | notCollectionCreator
  | tooManyEntries
  deriving DecidableEq

/-- `MAX_ALLOWLIST_ENTRIES`. -/
def maxAllowlistEntries : ℕ := 200000

namespace AllowlistEntry

def signingMessage (collectionId : String) (phaseIndex : UInt32) (pubkeys : List (Commitment P))
    (publishedAt : UInt64) : List UInt8 :=
  asBytes "HazeAllowlistPublish:" ++ asBytes collectionId ++ toLeBytes 4 phaseIndex.toNat
    ++ pubkeys.flatMap Commitment.toBytes ++ toLeBytes 8 publishedAt.toNat

variable (e : AllowlistEntry P)

def validateStandalone : Except AllowlistError Unit :=
  if e.pubkeys.length > maxAllowlistEntries then .error .tooManyEntries
  else
    let msg := signingMessage e.collectionId e.phaseIndex e.pubkeys e.publishedAt
    if !e.signature.verify msg e.creatorPubkey then .error .invalidSignature else .ok ()

def validateAgainstRegistry (collectionRegistry : KeyedMap String (CollectionRecord P)) :
    Except AllowlistError Unit :=
  match collectionRegistry.lookup e.collectionId with
  | some record =>
      if record.creatorPubkey = e.creatorPubkey then .ok () else .error .notCollectionCreator
  | none => .error .notCollectionCreator

end AllowlistEntry

/-- `AllowlistState`: one entry per phase of a collection. -/
abbrev AllowlistState (P : Crypto) := KeyedMap (String × UInt32) (AllowlistEntry P)

/-- `AllowlistState::publish`. -/
def AllowlistState.publish (s : AllowlistState P) (entry : AllowlistEntry P) : AllowlistState P :=
  s.insert (entry.collectionId, entry.phaseIndex) entry

/-! ## The inbox (`inbox.rs`) -/

def inboxPostSigningMessage (toPubkeyHex kind payloadJson : String) : List UInt8 :=
  asBytes ("HazeInboxMessage:" ++ toPubkeyHex ++ ":" ++ kind ++ ":" ++ payloadJson)

def inboxPollSigningMessage (pubkeyHex : String) (timestamp : UInt64) : List UInt8 :=
  asBytes ("HazeInboxPoll:" ++ pubkeyHex ++ ":" ++ toString timestamp.toNat)

end Haze
