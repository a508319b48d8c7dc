import Haze.Chain.Candidates
import Haze.Chain.Checks
import Haze.Chain.Runs
import Haze.Devnet
import Haze.Lib.Encoding
import Haze.Lib.Index

/-!
# The registries behind a tip

A header commits to the three registries that its block leaves, through the roots it carries, and its
hash is the tip of the state. So the tip determines the registries: `registries_pinned`. It does not
determine the block, whose stake registrations no header field covers (`pinned_twins`).

Assumed are no collisions of SHA-256 among the messages hashed, no header with the hash of an empty
chain, and an encoding of the records that can be taken apart again.
-/

namespace Haze

open Encoding

variable {P : Crypto}

/-! ## Headers

A header is hashed as one message, in which the three roots have a fixed place. -/

/-- What `BlockHeader::hash` hashes. -/
def BlockHeader.message (h : BlockHeader P) : List UInt8 :=
  toLeBytes 8 h.height.toNat ++ h.prevHash.toList ++ (P.scalarBytes h.totalKernelOffset).toList
    ++ toLeBytes 8 h.nonce.toNat ++ toLeBytes 8 h.timestamp.toNat ++ h.validatorCommitment.toBytes
    ++ (P.scalarBytes h.validatorSignature.s).toList
    ++ (P.scalarBytes h.validatorSignature.e).toList ++ h.nameRegistryRoot.toList
    ++ toLeBytes 8 h.chainId.toNat ++ h.assetRegistryRoot.toList ++ h.collectionRegistryRoot.toList

/-- Two headers with the same roots. -/
structure SameRoots (h h' : BlockHeader P) : Prop where
  names : h.nameRegistryRoot = h'.nameRegistryRoot
  assets : h.assetRegistryRoot = h'.assetRegistryRoot
  collections : h.collectionRegistryRoot = h'.collectionRegistryRoot

theorem toList_append_inj {xs xs' : List UInt8} {v v' : Bytes32}
    (h : xs ++ v.toList = xs' ++ v'.toList) : xs = xs' ∧ v = v' := by
  obtain ⟨hxs, hv⟩ := List.append_inj' h (by simp)
  exact ⟨hxs, List.Vector.eq _ _ hv⟩

/-- The fields have fixed widths, so the roots can be read off the end of the message. -/
theorem sameRoots_of_message_eq {h h' : BlockHeader P} (heq : h.message = h'.message) :
    SameRoots h h' := by
  obtain ⟨heq, hcollections⟩ := toList_append_inj heq
  obtain ⟨heq, hassets⟩ := toList_append_inj heq
  obtain ⟨heq, -⟩ := List.append_inj' heq (by simp [Devnet.length_toLeBytes])
  obtain ⟨-, hnames⟩ := toList_append_inj heq
  exact ⟨hnames, hassets, hcollections⟩

/-! ## Registries

A root is the hash of all records in the order of their keys. Without collisions, and with an encoder that
delimits its records, it determines them. -/

/-- What `compute_registry_root` and its siblings hash. -/
def registryMessage {V : Type} (encode : V → Serde) (registry : KeyedMap String V) : List UInt8 :=
  registry.sortedValues.flatMap fun r => P.bincode (encode r)

/-- A root determines the registry. -/
theorem registry_eq_of_root_eq {V : Type} {encode : V → Serde} {key : V → String}
    {m m' : KeyedMap String V} {messages : List (List UInt8)} (hm : KeyedMap.Keyed key m)
    (hm' : KeyedMap.Keyed key m') (hfree : CollisionFree P.sha256 messages)
    (hmem : registryMessage (P := P) encode m ∈ messages)
    (hmem' : registryMessage (P := P) encode m' ∈ messages)
    (henc : SelfDelimiting (fun r => P.bincode (encode r)) (m.sortedValues ++ m'.sortedValues))
    (hroot : registryRoot (P := P) encode m = registryRoot (P := P) encode m') : m = m' := by
  have hmessage : registryMessage (P := P) encode m = registryMessage (P := P) encode m' :=
    hfree _ hmem _ hmem' hroot
  have hvalues : m.sortedValues = m'.sortedValues :=
    henc.flatMap_inj (List.subset_append_left _ _) (List.subset_append_right _ _) hmessage
  exact hm.ext hm' hvalues

namespace ChainState

variable {s s' : ChainState P} {b : Block P} {c : Candidate P} {chain : List (Block P)}

/-- Every record carries the key it is stored under. -/
structure RecordsKeyed (s : ChainState P) : Prop where
  names : KeyedMap.Keyed NameRecord.name s.nameRegistry
  assets : KeyedMap.Keyed AssetRecord.assetId s.assetRegistry
  collections : KeyedMap.Keyed CollectionRecord.collectionId s.collectionRegistry

theorem recordsKeyed_new : RecordsKeyed (ChainState.new : ChainState P) :=
  ⟨.empty _, .empty _, .empty _⟩

theorem keyed_namesAfter (h : KeyedMap.Keyed NameRecord.name s.nameRegistry) (b : Block P) :
    KeyedMap.Keyed NameRecord.name (s.namesAfter b) := by
  refine Checked.foldl_induct ?_ ?_ b.transferOps
  · refine Checked.foldl_induct h ?_ b.nameOps
    intro m op hm
    exact hm.insert rfl
  · intro m op hm
    rw [transferName]
    split
    · exact hm.insert rfl
    · exact hm

theorem keyed_assetsAfter (h : KeyedMap.Keyed AssetRecord.assetId s.assetRegistry) (b : Block P) :
    KeyedMap.Keyed AssetRecord.assetId (s.assetsAfter b) := by
  refine Checked.foldl_induct ?_ ?_ b.transferAssetOps
  · refine Checked.foldl_induct h ?_ b.mintOps
    intro m op hm
    exact hm.insert rfl
  · intro m op hm
    rw [transferAsset]
    split
    · exact hm.insert rfl
    · exact hm

theorem keyed_collectionsAfter
    (h : KeyedMap.Keyed CollectionRecord.collectionId s.collectionRegistry) (b : Block P) :
    KeyedMap.Keyed CollectionRecord.collectionId (s.collectionsAfter b) := by
  refine Checked.foldl_induct h ?_ b.launchCollectionOps
  intro m op hm
  exact hm.insert rfl

theorem RecordsKeyed.commitBlock (h : RecordsKeyed s) (hcheck : s.checkBlock b = some c) :
    RecordsKeyed (s.commitBlock b c).1 := by
  have hrec := recorded_of_checkBlock hcheck
  have hfold := folded_of_checkBlock hcheck
  refine ⟨?_, ?_, ?_⟩
  · rw [hrec.nameRegistry_eq, hfold.registry]
    exact keyed_namesAfter h.names b
  · rw [hrec.assetRegistry_eq, hfold.assets]
    exact keyed_assetsAfter h.assets b
  · rw [hrec.collectionRegistry_eq, hfold.collections]
    exact keyed_collectionsAfter h.collections b

/-! ## The tip

The tip of a chain commits to the registries that are in force behind it. -/

/-- The header commits to the registries of the state. -/
structure Commits (h : BlockHeader P) (s : ChainState P) : Prop where
  names : computeRegistryRoot s.nameRegistry = h.nameRegistryRoot
  assets : computeAssetRegistryRoot s.assetRegistry = h.assetRegistryRoot
  collections : computeCollectionRegistryRoot s.collectionRegistry = h.collectionRegistryRoot

/-- The map committed is the candidate whose root was checked. -/
theorem commits_commitBlock (hcheck : s.checkBlock b = some c) :
    Commits b.header (s.commitBlock b c).1 := by
  have hrec := recorded_of_checkBlock hcheck
  obtain ⟨-, -, hroots⟩ := checkBlock_eq_some_iff.mp hcheck
  refine ⟨?_, ?_, ?_⟩
  · rw [hrec.nameRegistry_eq]
    exact hroots.names
  · rw [hrec.assetRegistry_eq]
    exact hroots.assets
  · rw [hrec.collectionRegistry_eq]
    exact hroots.collections

/-- The tip is the hash of the last header, which commits to the registries. -/
inductive TipCommits : ChainState P → List (Block P) → Prop
  | empty : TipCommits ChainState.new []
  | block {s : ChainState P} {chain : List (Block P)} {b : Block P} :
      b ∈ chain → s.lastBlockHash = b.hash → Commits b.header s → TipCommits s chain

/-- What a linear run leaves behind. -/
theorem tipCommits_applyAll {bs : List (Block P)} {δs : List (AppliedDelta P)}
    (h : applyAll bs ChainState.new = some (s, δs)) : RecordsKeyed s ∧ TipCommits s bs := by
  have hstart : RecordsKeyed (ChainState.new : ChainState P) ∧
      TipCommits ChainState.new ([] : List (Block P)).reverse := ⟨recordsKeyed_new, .empty⟩
  have hrun := applyAll_induct (motive := fun s chain => RecordsKeyed s ∧ TipCommits s chain.reverse)
    ?_ hstart h
  · rwa [List.append_nil, List.reverse_reverse] at hrun
  · rintro s chain b c ⟨hkeyed, -⟩ hcheck
    refine ⟨hkeyed.commitBlock hcheck, .block ?_ rfl (commits_commitBlock hcheck)⟩
    exact List.mem_reverse.mpr List.mem_cons_self

/-- The messages hashed in a run: its headers, and the registries it leaves. -/
def hashed (bs : List (Block P)) (s : ChainState P) : List (List UInt8) :=
  bs.map (fun b => b.header.message) ++
    [registryMessage (P := P) NameRecord.serde s.nameRegistry,
      registryMessage (P := P) AssetRecord.serde s.assetRegistry,
      registryMessage (P := P) CollectionRecord.serde s.collectionRegistry]

/-- The records of both states can be told apart by their encodings, one after another. -/
structure RecordsDelimited (s s' : ChainState P) : Prop where
  names : SelfDelimiting (fun r => P.bincode (NameRecord.serde r))
    (s.nameRegistry.sortedValues ++ s'.nameRegistry.sortedValues)
  assets : SelfDelimiting (fun r => P.bincode (AssetRecord.serde r))
    (s.assetRegistry.sortedValues ++ s'.assetRegistry.sortedValues)
  collections : SelfDelimiting (fun r => P.bincode (CollectionRecord.serde r))
    (s.collectionRegistry.sortedValues ++ s'.collectionRegistry.sortedValues)

instance (s s' : ChainState P) : Decidable (RecordsDelimited s s') :=
  decidable_of_iff
    (SelfDelimiting (fun r => P.bincode (NameRecord.serde r))
        (s.nameRegistry.sortedValues ++ s'.nameRegistry.sortedValues) ∧
      SelfDelimiting (fun r => P.bincode (AssetRecord.serde r))
        (s.assetRegistry.sortedValues ++ s'.assetRegistry.sortedValues) ∧
      SelfDelimiting (fun r => P.bincode (CollectionRecord.serde r))
        (s.collectionRegistry.sortedValues ++ s'.collectionRegistry.sortedValues))
    ⟨fun h => ⟨h.1, h.2.1, h.2.2⟩, fun h => ⟨h.names, h.assets, h.collections⟩⟩

/-- The two states have the same registries. -/
structure SameRegistries (s s' : ChainState P) : Prop where
  names : s.nameRegistry = s'.nameRegistry
  assets : s.assetRegistry = s'.assetRegistry
  collections : s.collectionRegistry = s'.collectionRegistry

/-- Headers with the same roots commit to the same registries. -/
theorem sameRegistries_of_sameRoots {h h' : BlockHeader P} {messages : List (List UInt8)}
    (hk : RecordsKeyed s) (hk' : RecordsKeyed s') (hc : Commits h s) (hc' : Commits h' s')
    (hroots : SameRoots h h') (hfree : CollisionFree P.sha256 messages)
    (hsub : hashed [] s ⊆ messages) (hsub' : hashed [] s' ⊆ messages)
    (henc : RecordsDelimited s s') : SameRegistries s s' := by
  simp only [hashed, List.map_nil, List.nil_append, List.cons_subset] at hsub hsub'
  refine ⟨?_, ?_, ?_⟩
  · exact registry_eq_of_root_eq hk.names hk'.names hfree hsub.1 hsub'.1 henc.names
      (hc.names.trans (hroots.names.trans hc'.names.symm))
  · exact registry_eq_of_root_eq hk.assets hk'.assets hfree hsub.2.1 hsub'.2.1 henc.assets
      (hc.assets.trans (hroots.assets.trans hc'.assets.symm))
  · exact registry_eq_of_root_eq hk.collections hk'.collections hfree hsub.2.2.1 hsub'.2.2.1
      henc.collections (hc.collections.trans (hroots.collections.trans hc'.collections.symm))

/-- **The tip pins the registries.** Two runs from a fresh state that end with the same tip end with
the same registries. -/
theorem registries_pinned {bs bs' : List (Block P)} {δs δs' : List (AppliedDelta P)}
    (h : applyAll bs ChainState.new = some (s, δs))
    (h' : applyAll bs' ChainState.new = some (s', δs'))
    (hfree : CollisionFree P.sha256 (hashed bs s ++ hashed bs' s'))
    (hzero : ∀ b ∈ bs ++ bs', b.hash ≠ zeroHash) (henc : RecordsDelimited s s')
    (htip : s.lastBlockHash = s'.lastBlockHash) : SameRegistries s s' := by
  obtain ⟨hkeyed, hcommits⟩ := tipCommits_applyAll h
  obtain ⟨hkeyed', hcommits'⟩ := tipCommits_applyAll h'
  -- a node without any block has the zero hash as its tip, which no block has
  cases hcommits with
  | empty =>
      cases hcommits' with
      | empty => exact ⟨rfl, rfl, rfl⟩
      | block hb' htip' _ =>
          exact absurd (htip'.symm.trans htip.symm) (hzero _ (List.mem_append_right _ hb'))
  | @block _ _ b hb htip₁ hc =>
      cases hcommits' with
      | empty => exact absurd (htip₁.symm.trans htip) (hzero _ (List.mem_append_left _ hb))
      -- the same tip is the same header, so the same roots
      | @block _ _ b' hb' htip₂ hc' =>
          have hhash : P.sha256 b.header.message = P.sha256 b'.header.message :=
            htip₁.symm.trans (htip.trans htip₂)
          have hmem : b.header.message ∈ hashed bs s :=
            List.mem_append_left _ (List.mem_map.mpr ⟨b, hb, rfl⟩)
          have hmem' : b'.header.message ∈ hashed bs' s' :=
            List.mem_append_left _ (List.mem_map.mpr ⟨b', hb', rfl⟩)
          have hmessage := hfree _ (List.mem_append_left _ hmem) _ (List.mem_append_right _ hmem') hhash
          refine sameRegistries_of_sameRoots hkeyed hkeyed' hc hc' (sameRoots_of_message_eq hmessage)
            hfree ?_ ?_ henc
          · intro m hm
            exact List.mem_append_left _ (List.mem_append_right _ hm)
          · intro m hm
            exact List.mem_append_right _ (List.mem_append_right _ hm)

end ChainState

namespace Devnet

open ChainState

theorem applyAll_linear {bs : List (Block crypto)}
    (h : (applyAll bs ChainState.new).isSome = true) :
    applyAll bs ChainState.new =
      some (linear bs, ((applyAll bs ChainState.new).map Prod.snd).getD []) := by
  obtain ⟨⟨s, δs⟩, h⟩ := Option.isSome_iff_exists.mp h
  simp [linear, h]

/-- A block that registers a name, and one that also registers a stake: their headers are the same. -/
def aliceBlock : Block crypto :=
  mineNames (linear [genesis]) (coinbase 1 11)
    [nameOp "alice" 3 (payment (genesisTotalMinted - 1_000_000) 7 3 5)]

def stakedAliceBlock : Block crypto :=
  { aliceBlock with validatorOps := [stakeOp] }

theorem pinned_twins :
    SameRegistries (linear [genesis, aliceBlock]) (linear [genesis, stakedAliceBlock]) ∧
      (linear [genesis, aliceBlock]).nameRegistry.lookup "alice" ≠ none ∧
      (linear [genesis, aliceBlock]).activeValidators ≠
        (linear [genesis, stakedAliceBlock]).activeValidators := by
  have hrun : (applyAll [genesis, aliceBlock] ChainState.new).isSome = true ∧
      (applyAll [genesis, stakedAliceBlock] ChainState.new).isSome = true ∧
      CollisionFree crypto.sha256
        (hashed [genesis, aliceBlock] (linear [genesis, aliceBlock]) ++
          hashed [genesis, stakedAliceBlock] (linear [genesis, stakedAliceBlock])) ∧
      (∀ b ∈ [genesis, aliceBlock] ++ [genesis, stakedAliceBlock], b.hash ≠ zeroHash) ∧
      RecordsDelimited (linear [genesis, aliceBlock]) (linear [genesis, stakedAliceBlock]) ∧
      (linear [genesis, aliceBlock]).lastBlockHash =
        (linear [genesis, stakedAliceBlock]).lastBlockHash ∧
      (linear [genesis, aliceBlock]).nameRegistry.lookup "alice" ≠ none ∧
      (linear [genesis, aliceBlock]).activeValidators ≠
        (linear [genesis, stakedAliceBlock]).activeValidators := by
    decide +kernel
  obtain ⟨happly, happly', hfree, hzero, henc, htip, hdiffer⟩ := hrun
  exact ⟨registries_pinned (applyAll_linear happly) (applyAll_linear happly') hfree hzero henc htip,
    hdiffer⟩

end Devnet

end Haze
