import Haze.Chain.Quota
import Haze.Lib.Ranked
import Haze.Wallet.Hex

/-!
# Looking up records (`api/src/names.rs`, `assets.rs`, `collections.rs`)

A wallet that is restored from its phrase has its keys back and not the names it registered, nor its
assets: it asks a node for all that belong to one key. The node reads its registry in the order of a hash
map, which is a different one in every process, and returns the newest records first, five hundred at
most.

A record says itself under which key it is filed, and the chain keeps that so (`Filed`). Two records that
were registered at one height are told apart by their keys, so the order of the map does not show.
-/

namespace Haze

open Checked

variable {P : Crypto} {R : Type}

/-! ## The handlers

The lookups read the registries of the chain. The listings sort what the hash map yields, and its order is
not determined; it is an argument here. -/

/-- `NamesListQuery` and `AssetsListQuery`. -/
structure ListQuery where
  limit : Option UInt64
  owner : Option String

inductive LookupReply (R : Type) where
  | found (record : R)
  | records (records : List R)
  | error (status : ℕ) (error : String)

/-- What the handlers sort by: the height, descending, then the key. -/
def newestFirst (height : R → UInt64) (key : R → String) (a b : R) : Prop :=
  height b < height a ∨ height a = height b ∧ key a ≤ key b

instance (height : R → UInt64) (key : R → String) : DecidableRel (newestFirst height key) :=
  fun a b => inferInstanceAs (Decidable (height b < height a ∨ height a = height b ∧ key a ≤ key b))

def listLimit (limit : Option UInt64) : ℕ :=
  (min (limit.getD 50) 500).toNat

/-- The owner in the query; the inner `none` is text that is no key. -/
def ListQuery.ownerFilter (query : ListQuery) : Except Panic (Option (Option (Commitment P))) :=
  match query.owner with
  | none => .ok (some none)
  | some hex => return (← Commitment.fromHex hex).map some

/-- Without an owner in the query, everybody's. -/
def belongs (ownerPubkey : R → Commitment P) (ownerFilter : Option (Commitment P)) (r : R) : Bool :=
  (ownerFilter.map fun o => decide (ownerPubkey r = o)).getD true

/-- The handlers that list what an owner has. `values` are the records as the hash map yields them. -/
def handleList (ownerPubkey : R → Commitment P) (height : R → UInt64) (key : R → String)
    (query : ListQuery) (values : List R) : Except Panic (LookupReply R) := do
  match ← query.ownerFilter with
  | none => return .error 400 "invalid owner pubkey hex"
  | some ownerFilter =>
      return .records (Ranked.top (newestFirst height key) (belongs ownerPubkey ownerFilter)
        (listLimit query.limit) values)

def handleListNames (query : ListQuery) (values : List (NameRecord P)) :
    Except Panic (LookupReply (NameRecord P)) :=
  handleList NameRecord.ownerPubkey NameRecord.registeredAtBlock NameRecord.name query values

def handleListAssets (query : ListQuery) (values : List (AssetRecord P)) :
    Except Panic (LookupReply (AssetRecord P)) :=
  handleList AssetRecord.ownerPubkey AssetRecord.mintedAtBlock AssetRecord.assetId query values

def handleListCollections (limit : Option UInt64) (values : List (CollectionRecord P)) :
    LookupReply (CollectionRecord P) :=
  .records (Ranked.top (newestFirst CollectionRecord.launchedAtBlock CollectionRecord.collectionId)
    (fun _ => true) (listLimit limit) values)

/-- The handlers that look up one record. -/
def handleResolve (registry : KeyedMap String R) (key missing : String) : LookupReply R :=
  match registry.lookup key with
  | some r => .found r
  | none => .error 404 missing

def handleResolveName (s : ChainState P) (name : String) : LookupReply (NameRecord P) :=
  handleResolve s.nameRegistry name ("name '" ++ name ++ "' is not registered")

def handleResolveAsset (s : ChainState P) (assetId : String) : LookupReply (AssetRecord P) :=
  handleResolve s.assetRegistry assetId ("asset '" ++ assetId ++ "' is not minted")

def handleGetCollection (s : ChainState P) (collectionId : String) :
    LookupReply (CollectionRecord P) :=
  handleResolve s.collectionRegistry collectionId ("collection '" ++ collectionId ++ "' is not launched")

/-! ## What is listed

A hash map may yield its values in any order that has each of them once. Records are compared by height and
then by key; keys differ, so the listing does not depend on that order. -/

/-- The hash map may yield its values so. -/
def Enumerates (registry : KeyedMap String R) (values : List R) : Prop :=
  (values : Multiset R) = registry.entries.map Sigma.snd

/-- A listing agrees with the lookups: what is listed is found under its key, and what is found is listed,
or the listing is as long as it may be and all of it comes before. -/
structure Listed (height : R → UInt64) (key : R → String) (keep : R → Bool) (limit : ℕ)
    (resolve : String → LookupReply R) (records : List R) : Prop where
  sorted : records.Pairwise fun a b => height b < height a ∨ height a = height b ∧ key a < key b
  bounded : records.length ≤ limit
  found : ∀ r ∈ records, resolve (key r) = .found r ∧ keep r = true
  complete : ∀ k r, resolve k = .found r → keep r = true → r ∈ records ∨
    records.length = limit ∧ ∀ x ∈ records, height r < height x ∨ height x = height r ∧ key x < key r

section Listed

variable {height : R → UInt64} {key : R → String} {keep : R → Bool} {registry : KeyedMap String R}
  {values values' : List R} {a b r : R}

instance : Std.Total (newestFirst height key) where
  total a b := by
    rcases UInt64.lt_or_le (height a) (height b) with hlt | hge
    · exact .inr (.inl hlt)
    rcases UInt64.lt_or_eq_of_le hge with hgt | heq
    · exact .inl (.inl hgt)
    rcases le_total (key a) (key b) with hle | hle
    · exact .inl (.inr ⟨heq.symm, hle⟩)
    · exact .inr (.inr ⟨heq, hle⟩)

instance : IsTrans R (newestFirst height key) where
  trans a b c := by
    rintro (hab | ⟨hab, hkey⟩) (hbc | ⟨hbc, hkey'⟩)
    · exact .inl (UInt64.lt_trans hbc hab)
    · exact .inl (hbc ▸ hab)
    · exact .inl (hab ▸ hbc)
    · exact .inr ⟨hab.trans hbc, hkey.trans hkey'⟩

/-- Records with different keys do not tie. -/
theorem newestFirst_strict (h : newestFirst height key a b) (hne : key a ≠ key b) :
    height b < height a ∨ height a = height b ∧ key a < key b := by
  rcases h with hlt | ⟨heq, hle⟩
  · exact .inl hlt
  · exact .inr ⟨heq, lt_of_le_of_ne hle hne⟩

theorem eq_key_of_ties (h : newestFirst height key a b) (h' : newestFirst height key b a) :
    key a = key b := by
  rcases h with hlt | ⟨heq, hle⟩
  · rcases h' with hlt' | ⟨heq', -⟩
    · exact absurd hlt' (UInt64.lt_asymm hlt)
    · exact absurd heq' (UInt64.ne_of_lt hlt)
  · rcases h' with hlt' | ⟨-, hle'⟩
    · exact absurd heq (UInt64.ne_of_lt hlt')
    · exact le_antisymm hle hle'

theorem Enumerates.mem_iff (h : Enumerates registry values) :
    r ∈ values ↔ ∃ k, registry.lookup k = some r := by
  rw [← Multiset.mem_coe, h, Multiset.mem_map]
  constructor
  · rintro ⟨⟨k, r⟩, hmem, rfl⟩
    exact ⟨k, Finmap.lookup_eq_some_iff.mpr hmem⟩
  · rintro ⟨k, hk⟩
    exact ⟨⟨k, r⟩, Finmap.lookup_eq_some_iff.mp hk, rfl⟩

/-- Every record is filed under its own key. -/
def FiledBy (key : R → String) (registry : KeyedMap String R) : Prop :=
  ∀ k r, registry.lookup k = some r → key r = k

theorem FiledBy.insert (h : FiledBy key registry) (r : R) : FiledBy key (registry.insert (key r) r) := by
  intro k r' hk
  by_cases heq : k = key r
  · subst heq
    rw [Finmap.lookup_insert] at hk
    rw [Option.some.inj hk]
  · rw [Finmap.lookup_insert_of_ne _ heq] at hk
    exact h k r' hk

/-- Records that are filed under their keys are told apart by them. -/
theorem FiledBy.injective (h : FiledBy key registry) (hvalues : Enumerates registry values)
    (ha : a ∈ values) (hb : b ∈ values) (hkey : key a = key b) : a = b := by
  obtain ⟨k, hk⟩ := hvalues.mem_iff.mp ha
  obtain ⟨k', hk'⟩ := hvalues.mem_iff.mp hb
  have hsame : k = k' := (h k a hk).symm.trans (hkey.trans (h k' b hk'))
  subst hsame
  exact Option.some.inj (hk.symm.trans hk')

theorem FiledBy.nodup (h : FiledBy key registry) (hvalues : Enumerates registry values) :
    values.Nodup := by
  have hnodup : (registry.entries.map Sigma.snd).Nodup := by
    refine registry.nodupKeys.nodup.map_on ?_
    rintro ⟨k, r⟩ hr ⟨k', r'⟩ hr' (rfl : r = r')
    obtain rfl : key r = k := h k r (Finmap.lookup_eq_some_iff.mpr hr)
    obtain rfl : key r = k' := h k' r (Finmap.lookup_eq_some_iff.mpr hr')
    rfl
  rw [← hvalues] at hnodup
  exact Multiset.coe_nodup.mp hnodup

/-- One listing for every order of the hash map. -/
theorem FiledBy.listed (h : FiledBy key registry) {resolve : String → LookupReply R}
    (hresolve : ∀ k r, resolve k = .found r ↔ registry.lookup k = some r) (keep : R → Bool) (limit : ℕ) :
    ∃ records, Listed height key keep limit resolve records ∧
      ∀ values, Enumerates registry values →
        Ranked.top (newestFirst height key) keep limit values = records := by
  obtain ⟨values, hvalues⟩ : ∃ values, Enumerates registry values := Quot.exists_rep _
  have hstrict : ∀ a ∈ values, ∀ b ∈ values, a ≠ b → newestFirst height key a b →
      height b < height a ∨ height a = height b ∧ key a < key b :=
    fun a ha b hb hne hab => newestFirst_strict hab fun hkey => hne (h.injective hvalues ha hb hkey)
  refine ⟨Ranked.top (newestFirst height key) keep limit values, ⟨?_, Ranked.length_top_le, ?_, ?_⟩, ?_⟩
  -- sorted, with no ties between different records
  · have hnodup : (Ranked.top (newestFirst height key) keep limit values).Nodup :=
      Ranked.nodup_top (h.nodup hvalues)
    refine (Ranked.pairwise_top.and hnodup).imp_of_mem ?_
    intro a b ha hb hab
    exact hstrict a (Ranked.mem_of_mem_top ha).1 b (Ranked.mem_of_mem_top hb).1 hab.2 hab.1
  · intro r hr
    obtain ⟨hmem, hkeep⟩ := Ranked.mem_of_mem_top hr
    obtain ⟨k, hk⟩ := hvalues.mem_iff.mp hmem
    refine ⟨(hresolve _ r).mpr ?_, hkeep⟩
    rw [h k r hk]
    exact hk
  · intro k r hr hkeep
    have hmem : r ∈ values := hvalues.mem_iff.mpr ⟨k, (hresolve k r).mp hr⟩
    by_cases hlisted : r ∈ Ranked.top (newestFirst height key) keep limit values
    · exact .inl hlisted
    · obtain ⟨hfull, hbefore⟩ := (Ranked.mem_top_or hmem hkeep).resolve_left hlisted
      refine .inr ⟨hfull, fun x hx => ?_⟩
      have hne : x ≠ r := fun heq => hlisted (heq ▸ hx)
      exact hstrict x (Ranked.mem_of_mem_top hx).1 r hmem hne (hbefore x hx)
  -- two enumerations are permutations of each other, and sorting takes them to one list
  · intro values' hvalues'
    refine (Ranked.top_perm ?_ (Multiset.coe_eq_coe.mp (hvalues.trans hvalues'.symm))).symm
    intro a ha b hb hab hba
    exact h.injective hvalues ha hb (eq_key_of_ties hab hba)

theorem handleResolve_eq_found {k missing : String} :
    handleResolve registry k missing = .found r ↔ registry.lookup k = some r := by
  unfold handleResolve
  split
  next r' hk => rw [hk, LookupReply.found.injEq, Option.some.injEq]
  next hk => rw [hk]; exact ⟨nofun, nofun⟩

end Listed

/-! ## Where records are filed

A listing sorts by the name inside a record, a lookup goes by the key the record is filed under. In every
state a chain reaches the two are the same. -/

namespace ChainState

variable {D : Block P → Prop} {s t : ChainState P} {b : Block P} {c : Candidate P} {chain : List (Block P)}

/-- The three registries file their records under the keys the records have. -/
structure Filed (s : ChainState P) : Prop where
  names : FiledBy NameRecord.name s.nameRegistry
  assets : FiledBy AssetRecord.assetId s.assetRegistry
  collections : FiledBy CollectionRecord.collectionId s.collectionRegistry

theorem Filed.new : Filed (ChainState.new : ChainState P) := by
  have hempty : ∀ {R : Type} (key : R → String), FiledBy key (∅ : KeyedMap String R) := by
    intro R key k r hk
    rw [Finmap.lookup_empty] at hk
    cases hk
  exact ⟨hempty _, hempty _, hempty _⟩

theorem Filed.restores (h : Filed s) (ht : Restores t s) : Filed t := by
  obtain ⟨hnames, hassets, hcollections⟩ := h
  rw [← ht.nameRegistry] at hnames
  rw [← ht.assetRegistry] at hassets
  rw [← ht.collectionRegistry] at hcollections
  exact ⟨hnames, hassets, hcollections⟩

theorem NamesWritten.filed {height : UInt64} {regs : List (RegisterNameOp P)}
    {transfers : List (TransferNameOp P)} {seen : Finset String} {registry : KeyedMap String (NameRecord P)}
    (h : NamesWritten s height regs transfers seen registry)
    (hnew : ∀ k ∈ regs.map RegisterNameOp.name, k ∉ s.nameRegistry)
    (hold : FiledBy NameRecord.name s.nameRegistry) : FiledBy NameRecord.name registry := by
  intro name r hr
  by_cases hbefore : name ∈ s.nameRegistry
  · rcases h.written.updated_or_kept hnew hbefore with ⟨op, hop, rfl, -⟩ | hsame
    · obtain ⟨current, hcur, -, hlookup⟩ := h.transferred op hop
      obtain rfl : op.record current = r := Option.some.inj (hlookup.symm.trans hr)
      rfl
    · exact hold name r (hsame.symm.trans hr)
  · obtain ⟨op, hop, rfl, -⟩ := h.new hr hbefore
    obtain ⟨-, hlookup⟩ := h.registered op hop
    obtain rfl : op.record height = r := Option.some.inj (hlookup.symm.trans hr)
    rfl

theorem AssetsWritten.filed {collections : KeyedMap String (CollectionRecord P)}
    {mints : List (MintAssetOp P)} {transfers : List (TransferAssetOp P)} {seen : Finset String}
    {registry : KeyedMap String (AssetRecord P)}
    (h : AssetsWritten s b collections mints transfers seen registry)
    (hnew : ∀ k ∈ mints.map MintAssetOp.assetId, k ∉ s.assetRegistry)
    (hold : FiledBy AssetRecord.assetId s.assetRegistry) : FiledBy AssetRecord.assetId registry := by
  intro assetId r hr
  by_cases hbefore : assetId ∈ s.assetRegistry
  · rcases h.written.updated_or_kept hnew hbefore with ⟨op, hop, rfl, -⟩ | hsame
    · obtain ⟨current, hcur, -, -, -, hlookup⟩ := h.transferred op hop
      obtain rfl : op.record current = r := Option.some.inj (hlookup.symm.trans hr)
      rfl
    · exact hold assetId r (hsame.symm.trans hr)
  · obtain ⟨op, hop, rfl, rfl, -⟩ := h.new hr hbefore
    rfl

theorem filed_checkLaunchOps {height : UInt64} {ops : List (LaunchCollectionOp P)} {acc : LaunchCheck P}
    (hold : FiledBy CollectionRecord.collectionId s.collectionRegistry)
    (h : ops.foldlM (s.checkLaunchOp height) ⟨∅, s.collectionRegistry⟩ = some acc) :
    FiledBy CollectionRecord.collectionId acc.registry := by
  refine foldlM_induct (motive := fun _ acc => FiledBy CollectionRecord.collectionId acc.registry)
    hold ?_ h
  intro ops op acc acc' ih hop
  simp only [checkLaunchOp, Option.bind_eq_bind, Option.bind_eq_some_iff, ensure_eq_some, exists_const,
    Option.pure_def, Option.some.injEq] at hop
  obtain ⟨-, -, rfl⟩ := hop
  exact ih.insert ⟨op.collectionId, op.creatorPubkey, op.name, op.symbol, op.metadata, op.phases, height,
    op.royaltyBps⟩

theorem Filed.commitBlock (h : Filed s) (hcheck : s.checkBlock b = some c) :
    Filed (s.commitBlock b c).1 := by
  have hacc := accepted_of_checkBlock hcheck
  have hrec := recorded_of_checkBlock hcheck
  refine ⟨?_, ?_, ?_⟩
  · obtain ⟨seen, hnames⟩ := hrec.names
    rw [hrec.nameRegistry_eq]
    exact hnames.filed hacc.names.absent h.names
  · obtain ⟨seen, hassets⟩ := hrec.assets
    rw [hrec.assetRegistry_eq]
    exact hassets.filed hacc.assets.absent h.assets
  · rw [hrec.collectionRegistry_eq]
    simp only [checkBlock, Option.bind_eq_bind, Option.bind_eq_some_iff, ensure_eq_some, exists_const,
      Option.pure_def, Option.some.injEq] at hcheck
    obtain ⟨-, _, -, -, -, -, -, named, -, names, -, -, launched, hlaunched, -, minted, -, assets, -, -,
      validators, -, rfl⟩ := hcheck
    exact filed_checkLaunchOps h.collections hlaunched

theorem Layered.filed (h : Layered D s chain) : Filed s := by
  induction h with
  | genesis _ hcheck hs => exact (Filed.new.commitBlock hcheck).restores hs
  | block _ _ _ hcheck hs ih => exact (ih.commitBlock hcheck).restores hs

end ChainState

/-! ## Lookups and listings

The listings and lookups on a state that a node can be in. -/

theorem ListQuery.ownerFilter_toHex (limit : Option UInt64) (o : Commitment P) :
    ListQuery.ownerFilter ⟨limit, some o.toHex⟩ = .ok (some (some o)) := by
  simp only [ListQuery.ownerFilter, Commitment.fromHex_toHex]
  rfl

theorem handleList_eq {ownerPubkey : R → Commitment P} {height : R → UInt64} {key : R → String}
    {query : ListQuery} {ownerFilter : Option (Commitment P)}
    (hquery : query.ownerFilter = .ok (some ownerFilter)) (values : List R) :
    handleList ownerPubkey height key query values = .ok (.records
      (Ranked.top (newestFirst height key) (belongs ownerPubkey ownerFilter) (listLimit query.limit)
        values)) := by
  unfold handleList
  rw [hquery]
  rfl

open ChainState in
/-- **Listings** agree with lookups, in every reachable state and in whatever order the hash maps yield
their records: the reply is one and the same, the newest first, and has all the records of the owner, or
as many as asked for, five hundred at most, and then the newest of them. -/
theorem registry_listed {D : Block P → Prop} {s : ChainState P} (hD : DistinctHashes D)
    (hs : Reachable D s) {query : ListQuery} {ownerFilter : Option (Commitment P)}
    (hquery : query.ownerFilter = .ok (some ownerFilter)) :
    listLimit query.limit ≤ 500 ∧
      (∃ records, Listed NameRecord.registeredAtBlock NameRecord.name
          (belongs NameRecord.ownerPubkey ownerFilter) (listLimit query.limit) (handleResolveName s) records ∧
        ∀ values, Enumerates s.nameRegistry values →
          handleListNames query values = .ok (.records records)) ∧
      (∃ records, Listed AssetRecord.mintedAtBlock AssetRecord.assetId
          (belongs AssetRecord.ownerPubkey ownerFilter) (listLimit query.limit) (handleResolveAsset s)
          records ∧
        ∀ values, Enumerates s.assetRegistry values →
          handleListAssets query values = .ok (.records records)) ∧
      ∃ records, Listed CollectionRecord.launchedAtBlock CollectionRecord.collectionId (fun _ => true)
          (listLimit query.limit) (handleGetCollection s) records ∧
        ∀ values, Enumerates s.collectionRegistry values →
          handleListCollections query.limit values = .records records := by
  -- a reachable state is a chain applied to genesis, and every block files its records properly
  obtain ⟨chain, -, hlayered⟩ := hs.layered hD
  obtain ⟨hnames, hassets, hcollections⟩ := hlayered.filed
  refine ⟨?_, ?_, ?_, ?_⟩
  · have hmin : (if query.limit.getD 50 ≤ 500 then query.limit.getD 50 else 500) ≤ 500 := by
      split
      next hle => exact hle
      · exact UInt64.le_refl _
    exact UInt64.le_iff_toNat_le.mp hmin
  · obtain ⟨records, hlisted, heq⟩ := hnames.listed (fun _ _ => handleResolve_eq_found)
      (belongs NameRecord.ownerPubkey ownerFilter) (listLimit query.limit)
    refine ⟨records, hlisted, fun values hvalues => ?_⟩
    rw [handleListNames, handleList_eq hquery, heq values hvalues]
  · obtain ⟨records, hlisted, heq⟩ := hassets.listed (fun _ _ => handleResolve_eq_found)
      (belongs AssetRecord.ownerPubkey ownerFilter) (listLimit query.limit)
    refine ⟨records, hlisted, fun values hvalues => ?_⟩
    rw [handleListAssets, handleList_eq hquery, heq values hvalues]
  · obtain ⟨records, hlisted, heq⟩ := hcollections.listed (fun _ _ => handleResolve_eq_found)
      (fun _ => true) (listLimit query.limit)
    refine ⟨records, hlisted, fun values hvalues => ?_⟩
    rw [handleListCollections, heq values hvalues]

namespace Devnet

open ChainState

/-- The key that registers the name in `nameBlock`. -/
def aliceKey : Commitment crypto := Commitment.new (P := crypto) 0 (3 : BitVec 256)

/-- A wallet with this key asks for its names. -/
theorem alice_listed :
    ((linear [genesis, nameBlock]).nameRegistry.lookup "alice").map NameRecord.ownerPubkey = some aliceKey ∧
      ∃ records, Listed NameRecord.registeredAtBlock NameRecord.name
          (belongs NameRecord.ownerPubkey (some aliceKey)) 50
          (handleResolveName (linear [genesis, nameBlock])) records ∧
        ∀ values, Enumerates (linear [genesis, nameBlock]).nameRegistry values →
          handleListNames ⟨none, some aliceKey.toHex⟩ values = .ok (.records records) := by
  have hrun : (zeroHash :: [genesis, nameBlock].map Block.hash).Nodup ∧
      (applyAll [genesis, nameBlock] ChainState.new).isSome = true ∧
      ((linear [genesis, nameBlock]).nameRegistry.lookup "alice").map NameRecord.ownerPubkey =
        some aliceKey := by
    decide +kernel
  obtain ⟨hnodup, hreach, howner⟩ := hrun
  exact ⟨howner, (registry_listed (distinctHashes_of_nodup hnodup)
    (reachable_linear (fun b hb => hb) rfl hreach) (ListQuery.ownerFilter_toHex none aliceKey)).2.1⟩

end Devnet

end Haze
