import Haze.Chain.Ownership
import Haze.Lib.Tasks
import Haze.P2p.Gossip

/-!
# Listings and the blocks that move assets

A node checks a listing against the registry of its chain and stores it, and when it has applied a block
that a peer sent, it sweeps out the listings that are no longer the owner's. The check and the storing
are two accesses, and so are applying, copying the registry and sweeping; between them the handlers of
other connections and the proposer go on.

After an event every stored listing should be the owner's (`listings_fresh`). There are three ways out.
The proposer applies its own blocks and sweeps nothing. A listing that was checked may be stored after a
block has moved the asset. And a handler may end while another one has yet to sweep.
-/

namespace Haze

open Tasks Checked

variable {P : Crypto}

/-! ## The handlers

Handlers of one node run side by side and share the chain, the marketplace and the mempool, each behind its
own lock. A task is one critical section together with what its handler does afterwards. -/

/-- The assets that a block mints or transfers. -/
def Block.touchedAssets (b : Block P) : List String :=
  b.mintOps.map MintAssetOp.assetId ++ b.transferAssetOps.map TransferAssetOp.assetId

/-- What a handler does next. -/
inductive ListingTask (P : Crypto) where
  /-- `NewListing`: the checks, the second of them on the chain. -/
  | validate (listing : Listing P)
  | addOrReplace (listing : Listing P)
  | cancel (assetId : String) (sellerPubkey : Commitment P) (signature : Signature P)
  /-- `NewBlock` and `BlocksBatch`: the blocks that are left to apply. -/
  | applyBlocks (blocks : List (Block P))
  /-- Takes the mempool, which it keeps for the sweep, and `asset_registry_snapshot`. -/
  | snapshot (result : ApplyResult P) (block : Block P) (blocks : List (Block P))
  | clearStale (touchedAssets : List String) (assetRegistry : KeyedMap String (AssetRecord P))
      (blocks : List (Block P))
  /-- The proposer has built a block. -/
  | propose (block : Block P)

/-- What the handlers share; of the mempool, whether one of them has it. -/
structure Listings (P : Crypto) where
  chain : ChainState P
  marketplace : MarketplaceState P
  mempoolTaken : Bool

namespace Listings

/-- One access of a handler: the state afterwards, and what is left to do. -/
def access (s : Listings P) : ListingTask P → Listings P × List (ListingTask P)
  | .validate listing =>
      if (GossipEntry.newListing listing).valid s.chain then (s, [.addOrReplace listing]) else (s, [])
  | .addOrReplace listing => ({ s with marketplace := s.marketplace.addOrReplace listing }, [])
  | .cancel assetId sellerPubkey signature =>
      if signature.verify (cancelSigningMessage assetId sellerPubkey) sellerPubkey then
        ({ s with marketplace := (s.marketplace.cancel assetId sellerPubkey).1 }, [])
      else (s, [])
  | .applyBlocks [] => (s, [])
  | .applyBlocks (block :: blocks) =>
      let (chain, result) := s.chain.applyBlock block
      -- a block that is not applied is the last that the chain is given: the handler stops there, or
      -- goes on to collect kernels
      ({ s with chain := chain }, if result.isApplied then [.snapshot result block blocks] else [])
  | .snapshot result block blocks =>
      if s.mempoolTaken then (s, [.snapshot result block blocks])
      else ({ s with mempoolTaken := true },
        [.clearStale block.touchedAssets s.chain.assetRegistry blocks])
  | .clearStale touchedAssets assetRegistry blocks =>
      ({ s with
        marketplace := s.marketplace.clearStale touchedAssets assetRegistry
        mempoolTaken := false }, if blocks.isEmpty then [] else [.applyBlocks blocks])
  | .propose block => ({ s with chain := (s.chain.applyBlock block).1 }, [])

/-- The key that may sell an asset. -/
def owner (s : Listings P) (assetId : String) : Option (Commitment P) :=
  s.chain.assetOwner assetId

/-- Every stored listing is the owner's. -/
def Fresh (s : Listings P) : Prop :=
  ∀ assetId listing, s.marketplace.lookup assetId = some listing →
    s.owner assetId = some listing.sellerPubkey

end Listings

/-- A node with its handlers. -/
abbrev ListingNode (P : Crypto) := System (Listings P) (ListingTask P)

inductive ListingOp (P : Crypto) where
  | newListing (listing : Listing P)
  | cancelListing (assetId : String) (sellerPubkey : Commitment P) (signature : Signature P)
  | newBlock (block : Block P)
  /-- A connection that has fallen back to collecting kernels gives no block to the chain. -/
  | blocksBatch (aggregateMode : Bool) (blocks : List (Block P))
  | propose (block : Block P)
  /-- A handler makes its next access. -/
  | run (task : ℕ)

namespace ListingNode

variable {n : ListingNode P} {s s' : Listings P} {tasks : List (ListingTask P)}

def start (chain : ChainState P) : ListingNode P := ⟨⟨chain, ∅, false⟩, []⟩

def step (n : ListingNode P) : ListingOp P → ListingNode P
  | .newListing listing => n.spawn (.validate listing)
  | .cancelListing assetId sellerPubkey signature => n.spawn (.cancel assetId sellerPubkey signature)
  | .newBlock block => n.spawn (.applyBlocks [block])
  | .blocksBatch aggregateMode blocks => n.spawn (.applyBlocks (if aggregateMode then [] else blocks))
  | .propose block => n.spawn (.propose block)
  | .run task => n.resume Listings.access task

/-- The access is the last of an event. -/
def ends (n : ListingNode P) : ListingOp P → Bool
  | .run task => n.waiting[task]?.any fun t => (n.shared.access t).2.isEmpty
  | _ => false

/-! ## Sweeps that are due

While a sweep is due a stale listing may be stored. So the invariant allows for it: a listing belongs to the
owner of its asset, or some handler still has it to sweep. -/

/-- The listing may be stale because of a block that the handler has applied, and if so it is taken out
before the handler ends. -/
def Owes : ListingTask P → String → Listing P → Prop
  | .snapshot (.reorg _ _) _ _, _, _ => True
  | .snapshot _ block _, assetId, _ => assetId ∈ block.touchedAssets
  | .clearStale touchedAssets assetRegistry _, assetId, listing =>
      assetId ∈ touchedAssets ∨
        (assetRegistry.lookup assetId).map AssetRecord.ownerPubkey ≠ some listing.sellerPubkey
  | _, _, _ => False

/-- What an access has to find. A listing is stored while the seller owns the asset. A block of the
proposer moves no asset that is listed, and does not reorganize the chain. -/
def Timely (s : Listings P) : ListingTask P → Prop
  | .addOrReplace listing => s.owner listing.assetId = some listing.sellerPubkey
  | .propose block => s.chain.reorgOf block = none ∧ (s.chain.isLinear block = true →
      ∀ assetId ∈ block.transferAssetOps.map TransferAssetOp.assetId, assetId ∉ s.marketplace)
  | _ => True

/-- When it is the last of its event, no other handler owes a sweep of a stored listing. -/
def Settled (n : ListingNode P) (task : ℕ) : Prop :=
  ∀ t ∈ n.waiting.eraseIdx task, ∀ assetId listing,
    n.shared.marketplace.lookup assetId = some listing → ¬ Owes t assetId listing

/-- What a run has to observe. -/
def Orderly (n : ListingNode P) : ListingOp P → Prop
  | .run task => (∀ t ∈ n.waiting[task]?, Timely n.shared t) ∧
      (n.ends (.run task) = true → Settled n task)
  | _ => True

/-- Every stored listing is the owner's or will be swept. -/
def Accounted (s : Listings P) (tasks : List (ListingTask P)) : Prop :=
  ∀ assetId listing, s.marketplace.lookup assetId = some listing →
    s.owner assetId = some listing.sellerPubkey ∨ ∃ t ∈ tasks, Owes t assetId listing

/-- What an access does for a listing that is stored afterwards: it is the owner's, or it was there, and
if it was the owner's or the handler owed its sweep, then it is so still. -/
def Kept (s : Listings P) (t : ListingTask P) (s' : Listings P) (rest : List (ListingTask P)) : Prop :=
  ∀ assetId listing, s'.marketplace.lookup assetId = some listing →
    s'.owner assetId = some listing.sellerPubkey ∨
      s.marketplace.lookup assetId = some listing ∧
        (s.owner assetId = some listing.sellerPubkey ∨ Owes t assetId listing →
          s'.owner assetId = some listing.sellerPubkey ∨ ∃ t' ∈ rest, Owes t' assetId listing)

/-- An access that leaves the chain, of a handler that owes nothing. -/
theorem kept_of_subset {t : ListingTask P} {rest : List (ListingTask P)}
    (howes : ∀ assetId listing, ¬ Owes t assetId listing) (hchain : s'.chain = s.chain)
    (hsub : ∀ assetId listing, s'.marketplace.lookup assetId = some listing →
      s.marketplace.lookup assetId = some listing) : Kept s t s' rest := by
  intro assetId listing hlisting
  refine .inr ⟨hsub assetId listing hlisting, ?_⟩
  rintro (hfresh | howed)
  · rw [Listings.owner, hchain]
    exact .inl hfresh
  · exact absurd howed (howes assetId listing)

/-- A block that extends the tip leaves the owners of the assets that it does not transfer. -/
theorem owner_applyLinearBlock {chain chain' : ChainState P} {block : Block P} {δ : AppliedDelta P}
    {assetId : String} {o : Commitment P} (h : chain.applyLinearBlock block = some (chain', δ))
    (hid : assetId ∉ block.transferAssetOps.map TransferAssetOp.assetId)
    (ho : chain.assetOwner assetId = some o) : chain'.assetOwner assetId = some o := by
  obtain ⟨c, hcheck, hcommit⟩ := ChainState.applyLinearBlock_eq_some_iff.mp h
  obtain rfl := congrArg Prod.fst hcommit
  have hstep := ChainState.custody_assets (ChainState.accepted_of_checkBlock hcheck)
    (ChainState.recorded_of_checkBlock hcheck)
  exact hstep.kept assetId o hid ho

theorem kept_applyBlocks (s : Listings P) (block : Block P) (blocks : List (Block P)) :
    Kept s (.applyBlocks (block :: blocks)) (s.access (.applyBlocks (block :: blocks))).1
      (s.access (.applyBlocks (block :: blocks))).2 := by
  intro assetId listing hlisting
  refine .inr ⟨hlisting, ?_⟩
  rintro (hfresh | howed)
  swap
  · exact howed.elim
  have houtcome := ChainState.outcome_applyBlock s.chain block
  simp only [Listings.access, Listings.owner]
  generalize s.chain.applyBlock block = r at houtcome ⊢
  cases houtcome with
  | invalid _ => exact .inl hfresh
  | refused _ => exact .inl hfresh
  | linear _ happly =>
      by_cases htouched : assetId ∈ block.touchedAssets
      · exact .inr ⟨_, List.mem_singleton_self _, htouched⟩
      · refine .inl (owner_applyLinearBlock happly ?_ hfresh)
        exact fun hid => htouched (List.mem_append_right _ hid)
  | reorg _ _ _ _ _ => exact .inr ⟨_, List.mem_singleton_self _, trivial⟩

theorem kept_propose {block : Block P} (htimely : Timely s (.propose block)) :
    Kept s (.propose block) (s.access (.propose block)).1 (s.access (.propose block)).2 := by
  obtain ⟨hreorg, hmoved⟩ := htimely
  intro assetId listing hlisting
  have hstored : s.marketplace.lookup assetId = some listing := hlisting
  refine .inr ⟨hstored, ?_⟩
  rintro (hfresh | howed)
  swap
  · exact howed.elim
  have houtcome := ChainState.outcome_applyBlock s.chain block
  simp only [Listings.access, Listings.owner]
  generalize s.chain.applyBlock block = r at houtcome ⊢
  cases houtcome with
  | invalid _ => exact .inl hfresh
  | refused _ => exact .inl hfresh
  | linear hlinear happly =>
      refine .inl (owner_applyLinearBlock happly ?_ hfresh)
      exact fun hid => hmoved hlinear assetId hid (Finmap.mem_of_lookup_eq_some hstored)
  | reorg _ hplan _ _ _ =>
      rw [hreorg] at hplan
      cases hplan

/-- Taking the snapshot turns what is owed into the listings that the snapshot has under other
owners. -/
theorem kept_snapshot (s : Listings P) (result : ApplyResult P) (block : Block P)
    (blocks : List (Block P)) :
    Kept s (.snapshot result block blocks) (s.access (.snapshot result block blocks)).1
      (s.access (.snapshot result block blocks)).2 := by
  intro assetId listing
  simp only [Listings.access]
  split
  · intro hlisting
    refine .inr ⟨hlisting, ?_⟩
    rintro (hfresh | howed)
    · exact .inl hfresh
    · exact .inr ⟨_, List.mem_singleton_self _, howed⟩
  · intro hlisting
    refine .inr ⟨hlisting, fun _ => ?_⟩
    by_cases hfresh : s.owner assetId = some listing.sellerPubkey
    · exact .inl hfresh
    · exact .inr ⟨_, List.mem_singleton_self _, .inr hfresh⟩

theorem kept_access {t : ListingTask P} (htimely : Timely s t) :
    Kept s t (s.access t).1 (s.access t).2 := by
  -- the check of a listing only looks, the store comes later and has to find the seller the owner still
  cases t with
  | validate listing =>
      simp only [Listings.access]
      split
      · exact kept_of_subset (fun _ _ h => h) rfl fun _ _ h => h
      · exact kept_of_subset (fun _ _ h => h) rfl fun _ _ h => h
  | addOrReplace listing =>
      intro assetId listing' hlisting
      change (s.marketplace.insert listing.assetId listing).lookup assetId = some listing' at hlisting
      by_cases hid : assetId = listing.assetId
      · subst hid
        rw [Finmap.lookup_insert] at hlisting
        obtain rfl := Option.some.inj hlisting
        exact .inl htimely
      · rw [Finmap.lookup_insert_of_ne _ hid] at hlisting
        refine .inr ⟨hlisting, ?_⟩
        rintro (hfresh | howed)
        · exact .inl hfresh
        · exact howed.elim
  -- a cancellation removes listings and nothing else
  | cancel assetId sellerPubkey signature =>
      simp only [Listings.access]
      split
      · exact kept_of_subset (fun _ _ h => h) rfl fun _ _ h => MarketplaceState.lookup_cancel h
      · exact kept_of_subset (fun _ _ h => h) rfl fun _ _ h => h
  | applyBlocks blocks =>
      cases blocks with
      | nil => exact kept_of_subset (fun _ _ h => h) rfl fun _ _ h => h
      | cons block blocks => exact kept_applyBlocks s block blocks
  | snapshot result block blocks => exact kept_snapshot s result block blocks
  | clearStale touchedAssets assetRegistry blocks =>
      intro assetId listing hlisting
      obtain ⟨hstored, htouched, hsame⟩ := MarketplaceState.lookup_clearStale.mp hlisting
      refine .inr ⟨hstored, ?_⟩
      rintro (hfresh | howed)
      · exact .inl hfresh
      -- what the sweep should have removed is not stored afterwards
      · rcases howed with howed | howed
        · exact absurd howed htouched
        · exact absurd hsame howed
  | propose block => exact kept_propose htimely

/-! ## Runs

A step takes one handler on. What it owed it owes still, or has swept; what the others owe does not change.
-/

theorem Accounted.spawn (h : Accounted n.shared n.waiting) (t : ListingTask P) :
    Accounted (n.spawn t).shared (n.spawn t).waiting := by
  intro assetId listing hlisting
  rcases h assetId listing hlisting with hfresh | ⟨t', ht', howed⟩
  · exact .inl hfresh
  · exact .inr ⟨t', List.mem_append_left _ ht', howed⟩

/-- Whoever owes the sweep of a listing is the handler whose turn it is, or one of the others. -/
theorem Accounted.split (h : Accounted s tasks) {task : ℕ} {t : ListingTask P}
    (ht : tasks[task]? = some t) {assetId : String} {listing : Listing P}
    (hlisting : s.marketplace.lookup assetId = some listing) :
    (s.owner assetId = some listing.sellerPubkey ∨ Owes t assetId listing) ∨
      ∃ t' ∈ tasks.eraseIdx task, Owes t' assetId listing := by
  rcases h assetId listing hlisting with hfresh | ⟨t', ht', howed⟩
  · exact .inl (.inl hfresh)
  · obtain ⟨hlt, rfl⟩ := List.getElem?_eq_some_iff.mp ht
    rcases List.mem_cons.mp ((List.getElem_cons_eraseIdx_perm hlt).mem_iff.mpr ht') with rfl | ht'
    · exact .inl (.inr howed)
    · exact .inr ⟨t', ht', howed⟩

theorem Accounted.step (h : Accounted n.shared n.waiting) {op : ListingOp P} (hop : Orderly n op) :
    Accounted (step n op).shared (step n op).waiting := by
  cases op with
  | newListing listing => exact h.spawn _
  | cancelListing assetId sellerPubkey signature => exact h.spawn _
  | newBlock block => exact h.spawn _
  | blocksBatch aggregateMode blocks => exact h.spawn _
  | propose block => exact h.spawn _
  | run task =>
      rcases System.resume_cases Listings.access n task with heq | ⟨t, ht, heq⟩
      · rw [ListingNode.step, heq]
        exact h
      · rw [ListingNode.step, heq]
        intro assetId listing hlisting
        rcases kept_access (hop.1 t ht) assetId listing hlisting with hfresh | ⟨hstored, hkept⟩
        · exact .inl hfresh
        · rcases h.split ht hstored with hown | ⟨t', ht', howed⟩
          · rcases hkept hown with hfresh | ⟨t', ht', howed⟩
            · exact .inl hfresh
            · exact .inr ⟨t', List.mem_append_right _ ht', howed⟩
          · exact .inr ⟨t', List.mem_append_left _ ht', howed⟩

/-- At the end of an event nothing is owed, and the listings that are left are the owners'. -/
theorem Accounted.fresh (h : Accounted n.shared n.waiting) {op : ListingOp P} (hop : Orderly n op)
    (hends : n.ends op = true) : (ListingNode.step n op).shared.Fresh := by
  cases op with
  | run task =>
      obtain ⟨t, ht, hrest⟩ := (Option.any_eq_true _ _).mp hends
      rw [List.isEmpty_iff] at hrest
      have heq : ListingNode.step n (.run task) =
          ⟨(n.shared.access t).1, n.waiting.eraseIdx task ++ (n.shared.access t).2⟩ := by
        simp only [ListingNode.step, System.resume, ht]
      rw [heq]
      intro assetId listing hlisting
      rcases kept_access (hop.1 t ht) assetId listing hlisting with hfresh | ⟨hstored, hkept⟩
      · exact hfresh
      · rcases h.split ht hstored with hown | ⟨t', ht', howed⟩
        · rcases hkept hown with hfresh | ⟨t', ht', -⟩
          · exact hfresh
          · rw [hrest] at ht'
            cases ht'
        · exact absurd howed (hop.2 hends t' ht' assetId listing hstored)
  | _ => cases hends

/-- **Listings are the owners'** after every event, in every run in which listings are stored while the
seller owns the asset, the proposer's blocks move no listed asset, and no handler ends while another
owes a sweep. -/
theorem listings_fresh {chain : ChainState P} {ops : List (ListingOp P)}
    (h : Guarded step Orderly (start chain) ops) :
    ∀ before op after, ops = before ++ op :: after →
      (before.foldl step (start chain)).ends op = true →
        ((before ++ [op]).foldl step (start chain)).shared.Fresh := by
  rintro before op after rfl hends
  obtain ⟨hbefore, hop, -⟩ := guarded_append.mp h
  have hstart : Accounted (start chain).shared (start chain).waiting := by
    intro assetId listing hlisting
    rw [start, Finmap.lookup_empty] at hlisting
    cases hlisting
  have hmid := hbefore.invariant (I := fun n => Accounted n.shared n.waiting)
    (fun n op hn hop => hn.step hop) hstart
  rw [List.foldl_append, List.foldl_cons, List.foldl_nil]
  exact hmid.fresh hop hends

section Decidable

instance (t : ListingTask P) (assetId : String) (listing : Listing P) :
    Decidable (Owes t assetId listing) :=
  match t with
  | .snapshot (.reorg _ _) _ _ => isTrue trivial
  | .snapshot (.linear _) block _ => inferInstanceAs (Decidable (assetId ∈ block.touchedAssets))
  | .snapshot .rejected block _ => inferInstanceAs (Decidable (assetId ∈ block.touchedAssets))
  | .clearStale touchedAssets assetRegistry _ =>
      inferInstanceAs (Decidable (assetId ∈ touchedAssets ∨
        (assetRegistry.lookup assetId).map AssetRecord.ownerPubkey ≠ some listing.sellerPubkey))
  | .validate _ | .addOrReplace _ | .cancel _ _ _ | .applyBlocks _ | .propose _ => isFalse id

instance (s : Listings P) (t : ListingTask P) : Decidable (Timely s t) :=
  match t with
  | .addOrReplace listing =>
      inferInstanceAs (Decidable (s.owner listing.assetId = some listing.sellerPubkey))
  | .propose block =>
      inferInstanceAs (Decidable (s.chain.reorgOf block = none ∧ (s.chain.isLinear block = true →
        ∀ assetId ∈ block.transferAssetOps.map TransferAssetOp.assetId, assetId ∉ s.marketplace)))
  | .validate _ | .cancel _ _ _ | .applyBlocks _ | .snapshot _ _ _ | .clearStale _ _ _ => isTrue trivial

/-- A check of all stored listings goes through the keys. -/
theorem forall_listing_iff {Q : String → Listing P → Prop} :
    (∀ assetId ∈ s.marketplace.keys, ∀ listing ∈ s.marketplace.lookup assetId, Q assetId listing) ↔
      ∀ assetId listing, s.marketplace.lookup assetId = some listing → Q assetId listing := by
  constructor
  · intro h assetId listing hlisting
    exact h assetId (Finmap.mem_keys.mpr (Finmap.mem_of_lookup_eq_some hlisting)) listing hlisting
  · intro h assetId _ listing hlisting
    exact h assetId listing hlisting

instance (s : Listings P) : Decidable s.Fresh :=
  decidable_of_iff (∀ assetId ∈ s.marketplace.keys, ∀ listing ∈ s.marketplace.lookup assetId,
    s.owner assetId = some listing.sellerPubkey) forall_listing_iff

instance (n : ListingNode P) (task : ℕ) : Decidable (Settled n task) :=
  decidable_of_iff (∀ t ∈ n.waiting.eraseIdx task, ∀ assetId ∈ n.shared.marketplace.keys,
      ∀ listing ∈ n.shared.marketplace.lookup assetId, ¬ Owes t assetId listing)
    (forall₂_congr fun _ _ => forall_listing_iff)

instance (n : ListingNode P) (op : ListingOp P) : Decidable (Orderly n op) :=
  match op with
  | .run task => inferInstanceAs (Decidable ((∀ t ∈ n.waiting[task]?, Timely n.shared t) ∧
      (n.ends (.run task) = true → Settled n task)))
  | .newListing _ | .cancelListing _ _ _ | .newBlock _ | .blocksBatch _ _ | .propose _ => isTrue trivial

end Decidable

end ListingNode

namespace Devnet

open ListingNode

/-- The key 3 offers its asset, and then a peer sends the block with which it is sold. -/
def soldByPeer : List (ListingOp crypto) :=
  [.newListing (relicOffer 100 0), .run 0, .run 0, .newBlock saleBlock, .run 0, .run 0, .run 0]

/-- The node itself proposes that block. -/
def soldByProposal : List (ListingOp crypto) :=
  [.newListing (relicOffer 100 0), .run 0, .run 0, .propose saleBlock, .run 0]

theorem sold_runs :
    Guarded step Orderly (start relicChain) soldByPeer ∧
      ((soldByPeer.take 3).foldl step (start relicChain)).shared.marketplace.lookup "relic" =
        some (relicOffer 100 0) ∧
      ((soldByPeer.take 6).foldl step (start relicChain)).ends (.run 0) = true ∧
      ((soldByProposal.take 4).foldl step (start relicChain)).ends (.run 0) = true ∧
      ¬ (soldByProposal.foldl step (start relicChain)).shared.Fresh := by
  decide +kernel

theorem soldByPeer_fresh :
    Guarded step Orderly (start relicChain) soldByPeer ∧
      ((soldByPeer.take 3).foldl step (start relicChain)).shared.marketplace.lookup "relic" =
        some (relicOffer 100 0) ∧
      (soldByPeer.foldl step (start relicChain)).shared.Fresh := by
  obtain ⟨hguarded, hstored, hends, -⟩ := sold_runs
  exact ⟨hguarded, hstored, listings_fresh hguarded (soldByPeer.take 6) (.run 0) [] rfl hends⟩

theorem soldByProposal_stale :
    ((soldByProposal.take 4).foldl step (start relicChain)).ends (.run 0) = true ∧
      ¬ (soldByProposal.foldl step (start relicChain)).shared.Fresh :=
  ⟨sold_runs.2.2.2.1, sold_runs.2.2.2.2⟩

end Devnet

end Haze
