import Haze.Chain.Undo
import Haze.Chain.Written

/-!
# Mint quotas

A mint of a collection is counted per phase and owner, and the count is checked against the limit of
the phase before it is raised. `quota_kept` says that the counts are those of the active chain and
within their limits, in every state that applying and rolling back can reach.

A rollback is not looked at here. `Layered` says that the registries of a reachable state are what one
block after another has left of a fresh state, so an invariant of applying blocks is one of all
reachable states.
-/

namespace Haze

open Checked

namespace ChainState

variable {P : Crypto} {D : Block P → Prop} {s s' t : ChainState P} {b : Block P} {c : Candidate P}
  {chain : List (Block P)}

/-! ## The layers under a reachable state

Under a state that can be reached there are layers, one for each block of its chain: the block was applied on
a reachable state with the registries of the blocks below it. -/

/-- The registries of `s` are what the blocks of the chain have left, each applied on a reachable
state that holds what the blocks below have left. -/
inductive Layered (D : Block P → Prop) : ChainState P → List (Block P) → Prop
  | genesis {g : Block P} {c : Candidate P} {s : ChainState P} :
      g.height = 0 → ChainState.new.checkBlock g = some c →
        Restores s (ChainState.new.commitBlock g c).1 → Layered D s [g]
  | block {s₀ s : ChainState P} {rest : List (Block P)} {b : Block P} {c : Candidate P} :
      Layered D s₀ rest → Reachable D s₀ → D b → s₀.checkBlock b = some c →
        Restores s (s₀.commitBlock b c).1 → Layered D s (b :: rest)

theorem Layered.mono (h : Layered D s chain) (ht : Restores t s) : Layered D t chain := by
  cases h with
  | genesis h0 hcheck hs => exact .genesis h0 hcheck (ht.trans hs)
  | block hrest hreach hb hcheck hs => exact .block hrest hreach hb hcheck (ht.trans hs)

/-- Rolling back uncovers the layer below. -/
theorem Layered.rollbackBlock {δ : RollbackDelta P} (hD : DistinctHashes D) (h : Layered D s chain)
    (hroll : s.rollbackBlock = some (s', δ)) : ∃ tip rest, chain = tip :: rest ∧ Layered D s' rest := by
  cases h with
  | genesis h0 _ hs =>
      have hheight : s.currentHeight = 0 := hs.currentHeight.trans h0
      rw [ChainState.rollbackBlock, if_pos hheight] at hroll
      cases hroll
  | block hrest hreach hb hcheck hs =>
      obtain ⟨t, δ', hroll', ht⟩ :=
        hs.rollbackBlock hD (hreach.sound hD) hb (accepted_of_checkBlock hcheck)
      rw [hroll] at hroll'
      obtain rfl : s' = t := congrArg Prod.fst (Option.some.inj hroll')
      exact ⟨_, _, rfl, hrest.mono ht⟩

theorem Reachable.layered (hD : DistinctHashes D) (h : Reachable D s) :
    ∃ chain, Tracks D s chain ∧ Layered D s chain := by
  induction h with
  | @genesis g s δ hg hg0 happly =>
      obtain ⟨c, hcheck, hcommit⟩ := applyLinearBlock_eq_some_iff.mp happly
      obtain rfl : (ChainState.new.commitBlock g c).1 = s := congrArg Prod.fst hcommit
      exact ⟨[g], Tracks.new.commitBlock hD hg (accepted_of_checkBlock hcheck),
        .genesis hg0 hcheck (Restores.refl _)⟩
  | @apply s s' b δ hs hb happly ih =>
      obtain ⟨chain, htracks, hlayered⟩ := ih
      obtain ⟨c, hcheck, hcommit⟩ := applyLinearBlock_eq_some_iff.mp happly
      obtain rfl : (s.commitBlock b c).1 = s' := congrArg Prod.fst hcommit
      exact ⟨b :: chain, htracks.commitBlock hD hb (accepted_of_checkBlock hcheck),
        .block hlayered hs hb hcheck (Restores.refl _)⟩
  | rollback _ hroll ih =>
      obtain ⟨chain, htracks, hlayered⟩ := ih
      obtain ⟨tip, rest, rfl, -, -, -, hrest⟩ := htracks.rollbackBlock hroll
      obtain ⟨tip', rest', heq, hlayered'⟩ := hlayered.rollbackBlock hD hroll
      obtain ⟨-, rfl⟩ := List.cons.inj heq
      exact ⟨rest, hrest, hlayered'⟩

/-! ## One block

The counters of a state are the mints on its chain, and none is above the limit of its phase. A block adds
its mints, and a rollback takes them away. -/

/-- The count is within the limit of its phase. -/
def WithinLimit (collections : KeyedMap String (CollectionRecord P)) (key : MintKey) (n : UInt32) :
    Prop :=
  ∃ collection phase, collections.lookup key.1 = some collection ∧
    collection.phases[key.2.1.toNat]? = some phase ∧ n ≤ phase.perWalletLimit

/-- Every count that the mints of a block have raised is within its limit. -/
theorem withinLimit_of_foldlM {collections : KeyedMap String (CollectionRecord P)}
    {spent : Finset (Commitment P)} {ops : List (MintAssetOp P)} {acc : MintCheck P}
    (h : ops.foldlM (s.checkMintOp b collections)
      ⟨spent, ∅, s.assetRegistry, s.collectionMintCounts, []⟩ = some acc) :
    ∀ key ∈ acc.mints, ∀ n, acc.counts.lookup key = some n → WithinLimit collections key n := by
  refine foldlM_induct (motive := fun _ acc => ∀ key ∈ acc.mints, ∀ n,
    acc.counts.lookup key = some n → WithinLimit collections key n) ?_ ?_ h
  · simp
  · intro ops op acc acc' ih hop
    simp only [checkMintOp, Option.bind_eq_bind, Option.bind_eq_some_iff, ensure_eq_some,
      exists_const, Option.pure_def, Option.some.injEq] at hop
    obtain ⟨-, -, spent', -, counted, hcount, -, rfl⟩ := hop
    rcases checkMintCount_cases hcount with ⟨-, rfl⟩ | ⟨raised, limit, hkey, -, rfl⟩
    · exact ih
    obtain ⟨-, collection, phase, hcol, hphase, hlimit⟩ := checkMintCount_collection hcount hkey
    intro key hmem n hn
    by_cases hraised : key = raised
    · subst hraised
      refine ⟨collection, phase, hcol, hphase, ?_⟩
      rw [Counter.bump, Finmap.lookup_insert] at hn
      obtain rfl := Option.some.inj hn
      -- the count was below the limit, so raising it does not wrap
      rw [UInt32.lt_iff_toNat_lt] at hlimit
      have hmax := phase.perWalletLimit.toNat_lt
      rw [UInt32.le_iff_toNat_le, UInt32.toNat_add, UInt32.toNat_one]
      omega
    · rw [Counter.bump, Finmap.lookup_insert_of_ne _ hraised] at hn
      have hold : key ∈ acc.mints := by
        rcases List.mem_append.mp hmem with hold | hnew
        · exact hold
        · exact absurd (List.mem_singleton.mp hnew) hraised
      exact ih key hold n hn

theorem withinLimit_of_checkBlock (h : s.checkBlock b = some c) :
    ∀ key ∈ c.mints, ∀ n, c.counts.lookup key = some n → WithinLimit c.collections key n := by
  simp only [checkBlock, Option.bind_eq_bind, Option.bind_eq_some_iff, ensure_eq_some, exists_const,
    Option.pure_def, Option.some.injEq] at h
  obtain ⟨-, _, -, -, -, -, -, named, -, names, -, -, launched, -, -, minted, hminted, assets,
    hassets, -, validators, -, rfl⟩ := h
  have hA := transfersChecked_of_foldlM hassets
  rw [hA.counts, hA.mints]
  exact withinLimit_of_foldlM hminted

/-- The mints on a chain that are counted under a key. -/
def mintsOn (chain : List (Block P)) (key : MintKey) : ℕ :=
  (chain.flatMap Block.mintOps).countP fun op => op.countKey = some key

/-- The counts are those of the chain and within their limits, and no asset is without its
collection. -/
structure Quota (s : ChainState P) (chain : List (Block P)) : Prop where
  positive : Counter.Positive s.collectionMintCounts
  count_eq : ∀ key, Counter.count s.collectionMintCounts key = mintsOn chain key
  limit : ∀ key n, s.collectionMintCounts.lookup key = some n →
    WithinLimit s.collectionRegistry key n
  launched : ∀ assetId r id, s.assetRegistry.lookup assetId = some r → r.collectionId = some id →
    id ∈ s.collectionRegistry

theorem Quota.new : Quota (ChainState.new : ChainState P) [] where
  positive := Counter.Positive.empty
  count_eq key := rfl
  limit key n h := by simp [ChainState.new] at h
  launched assetId r id h := by simp [ChainState.new] at h

theorem Quota.restores (h : Quota s chain) (ht : Restores t s) : Quota t chain := by
  obtain ⟨hpos, hcount, hlimit, hlaunched⟩ := h
  refine ⟨?_, ?_, ?_, ?_⟩
  · rw [ht.collectionMintCounts]
    exact hpos
  · rw [ht.collectionMintCounts]
    exact hcount
  · rw [ht.collectionMintCounts, ht.collectionRegistry]
    exact hlimit
  · rw [ht.assetRegistry, ht.collectionRegistry]
    exact hlaunched

/-- A block keeps every collection as it is. -/
theorem Recorded.collection_kept (hacc : Accepted s b c) (hrec : Recorded s b c) {id : String}
    {collection : CollectionRecord P} (h : s.collectionRegistry.lookup id = some collection) :
    c.collections.lookup id = some collection := by
  obtain ⟨seen, hcols⟩ := hrec.collections
  rw [hcols.frame id fun hmem => hacc.collections id hmem (Finmap.mem_of_lookup_eq_some h)]
  exact h

/-- The collection of an asset is the one of its mint, in this block or before. -/
theorem Recorded.launched (hacc : Accepted s b c) (hrec : Recorded s b c) {assetId id : String}
    {r : AssetRecord P} (hr : c.assets.lookup assetId = some r) (hid : r.collectionId = some id)
    (hbefore : ∀ assetId r, s.assetRegistry.lookup assetId = some r → r.collectionId = some id →
      id ∈ c.collections) : id ∈ c.collections := by
  obtain ⟨seen, hassets⟩ := hrec.assets
  by_cases hold : assetId ∈ s.assetRegistry
  · rcases hassets.written.updated_or_kept hacc.assets.absent hold with ⟨op, hop, rfl, -⟩ | hsame
    · obtain ⟨current, hcur, -, -, -, hlookup⟩ := hassets.transferred op hop
      obtain rfl : op.record current = r := Option.some.inj (hlookup.symm.trans hr)
      exact hbefore op.assetId current hcur hid
    · exact hbefore assetId r (hsame.symm.trans hr) hid
  · obtain ⟨op, hop, -, rfl, -⟩ := hassets.new hr hold
    exact (hassets.minted op hop).2.2 id hid

theorem Quota.commitBlock (h : Quota s chain) (hcheck : s.checkBlock b = some c) :
    Quota (s.commitBlock b c).1 (b :: chain) := by
  have hacc := accepted_of_checkBlock hcheck
  have hrec := recorded_of_checkBlock hcheck
  -- collections are never lost, so a limit that was there before is there afterwards
  have hkept : ∀ id ∈ s.collectionRegistry, id ∈ c.collections := by
    intro id hid
    obtain ⟨collection, hcol⟩ := Finmap.mem_iff.mp hid
    exact Finmap.mem_of_lookup_eq_some (hrec.collection_kept hacc hcol)
  refine ⟨?_, ?_, ?_, ?_⟩
  · rw [hacc.collectionMintCounts_eq]
    exact hacc.counts.positive h.positive
  · intro key
    rw [hacc.collectionMintCounts_eq, hacc.counts.count_eq, h.count_eq, hacc.mints,
      Counter.count_filterMap, mintsOn, mintsOn, List.flatMap_cons, List.countP_append]
    exact Nat.add_comm _ _
  · intro key n hn
    rw [hacc.collectionMintCounts_eq] at hn
    rw [hrec.collectionRegistry_eq]
    -- a key that the block counts is checked by it, and any other is as it was
    by_cases hmem : key ∈ c.mints
    · exact withinLimit_of_checkBlock hcheck key hmem n hn
    · rw [hacc.counts.frame key hmem] at hn
      obtain ⟨collection, phase, hcol, hphase, hle⟩ := h.limit key n hn
      exact ⟨collection, phase, hrec.collection_kept hacc hcol, hphase, hle⟩
  · intro assetId r id hr hid
    rw [hrec.assetRegistry_eq] at hr
    rw [hrec.collectionRegistry_eq]
    exact hrec.launched hacc hr hid fun assetId r hr hid => hkept id (h.launched assetId r id hr hid)

theorem Layered.quota (h : Layered D s chain) : Quota s chain := by
  induction h with
  | genesis _ hcheck hs => exact (Quota.new.commitBlock hcheck).restores hs
  | block _ _ _ hcheck hs ih => exact (ih.commitBlock hcheck).restores hs

/-- What the mint counts say about the active chain. -/
structure QuotaKept (s : ChainState P) : Prop where
  counted : ∀ key n, s.collectionMintCounts.lookup key = some n →
    n.toNat = mintsOn s.activeChain key
  absent : ∀ key, s.collectionMintCounts.lookup key = none ↔ mintsOn s.activeChain key = 0
  limit : ∀ key n, s.collectionMintCounts.lookup key = some n →
    WithinLimit s.collectionRegistry key n
  launched : ∀ assetId r id, s.assetRegistry.lookup assetId = some r → r.collectionId = some id →
    id ∈ s.collectionRegistry

/-- **Mint quotas are kept** in every reachable state. -/
theorem quota_kept (hD : DistinctHashes D) (hs : Reachable D s) : QuotaKept s := by
  obtain ⟨chain, htracks, hlayered⟩ := hs.layered hD
  obtain ⟨hpos, hcount, hlimit, hlaunched⟩ := hlayered.quota
  have hcounted : ∀ key n, s.collectionMintCounts.lookup key = some n →
      n.toNat = mintsOn chain key := by
    intro key n hn
    rw [← hcount, Counter.count, hn, Option.getD_some]
  rw [← htracks.activeChain_eq hD] at hcount hcounted
  refine ⟨hcounted, ?_, hlimit, hlaunched⟩
  intro key
  constructor
  · intro hnone
    rw [← hcount, Counter.count, hnone, Option.getD_none, UInt32.toNat_zero]
  · intro hzero
    cases hn : s.collectionMintCounts.lookup key with
    | none => rfl
    | some n =>
        have h0 : n.toNat = 0 := (hcounted key n hn).trans hzero
        exact absurd (UInt32.toNat_inj.mp h0) (hpos key n hn)

end ChainState

namespace Devnet

open ChainState

/-- A collection is launched and minted from in one block. -/
def launchBlock : Block crypto :=
  mineAssets (linear [genesis]) (coinbase 1 11) [launchOp "relics" 8 2]
    [collectionMintOp "relic" "relics" 3 8 (Commitment.new (P := crypto) 0 (0 - 11 : BitVec 256))
      (payment (genesisTotalMinted - 1_000_000) 7 3 5)] []

theorem launchBlock_quota_kept :
    ((linear [genesis, launchBlock]).collectionMintCounts.lookup
        ("relics", 0, crypto.compress (Commitment.new (P := crypto) 0 3).asPoint)) = some 1 ∧
      QuotaKept (linear [genesis, launchBlock]) := by
  have hrun : (zeroHash :: [genesis, launchBlock].map Block.hash).Nodup ∧
      (applyAll [genesis, launchBlock] ChainState.new).isSome = true ∧
      ((linear [genesis, launchBlock]).collectionMintCounts.lookup
        ("relics", 0, crypto.compress (Commitment.new (P := crypto) 0 3).asPoint)) = some 1 := by
    decide +kernel
  obtain ⟨hnodup, hreach, hcount⟩ := hrun
  exact ⟨hcount, quota_kept (distinctHashes_of_nodup hnodup)
    (reachable_linear (fun b hb => hb) rfl hreach)⟩

end Devnet

end Haze
