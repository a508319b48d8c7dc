import Haze.Chain.State
import Haze.Devnet
import Haze.Lib.Flood
import Haze.Market

/-!
# Gossip of listings and allowlists (`p2p/src/server.rs`)

The arms of `handle_peer_connection` for `NewListing` and `NewAllowlist` check the entry against the
signature it carries and the registry of the chain, put it into the store of the node and broadcast it
to all peers. Neither arm looks whether the store has the entry already, as the queues of the mempool
do for operations: an entry that was accepted once is accepted, and sent on, each time it comes back.

The network is `Flood` over the graph of connections; the nodes have the same chain.

Of the listings of one asset a node keeps the one that it received last (`listing_received_last`). The
time a seller puts into a listing is shown to buyers and compared by nobody, so an old listing that
arrives again takes the place of a newer one.
-/

namespace Haze

variable {P : Crypto}

/-- The two messages. -/
inductive GossipEntry (P : Crypto) where
  | newListing (listing : Listing P)
  | newAllowlist (entry : AllowlistEntry P)
  deriving DecidableEq

/-- The stores of a node that the messages go to. -/
structure GossipStores (P : Crypto) where
  marketplace : MarketplaceState P
  allowlist : AllowlistState P

/-- `valid`, in both arms. -/
def GossipEntry.valid (chain : ChainState P) : GossipEntry P → Bool
  | newListing listing =>
      listing.validateStandalone.isOk && (listing.validateAgainstRegistry chain.assetRegistry).isOk
  | newAllowlist entry =>
      entry.validateStandalone.isOk && (entry.validateAgainstRegistry chain.collectionRegistry).isOk

/-- The arms for `NewListing` and `NewAllowlist`: the stores afterwards, and whether the entry is
broadcast. -/
def handleGossip (chain : ChainState P) (stores : GossipStores P) (entry : GossipEntry P) :
    GossipStores P × Bool :=
  if entry.valid chain then
    match entry with
    | .newListing listing =>
        ({ stores with marketplace := stores.marketplace.addOrReplace listing }, true)
    | .newAllowlist entry => ({ stores with allowlist := stores.allowlist.publish entry }, true)
  else (stores, false)

/-- A valid entry is broadcast whatever the stores hold. -/
theorem handleGossip_forwards {chain : ChainState P} {entry : GossipEntry P}
    (hvalid : entry.valid chain = true) (stores : GossipStores P) :
    (handleGossip chain stores entry).2 = true := by
  cases entry with
  | newListing listing => simp [handleGossip, hvalid]
  | newAllowlist entry => simp [handleGossip, hvalid]

/-! ## The listing that stays

A listing is replaced by any valid listing of the same asset. Nothing in it says which of two is the newer,
so the last one received stays. -/

/-- A node receives listings one after another. -/
def receiveListings (chain : ChainState P) (stores : GossipStores P) (received : List (Listing P)) :
    GossipStores P :=
  received.foldl (fun stores listing => (handleGossip chain stores (.newListing listing)).1) stores

theorem marketplace_handleGossip (chain : ChainState P) (stores : GossipStores P)
    (listing : Listing P) :
    (handleGossip chain stores (.newListing listing)).1.marketplace =
      if (GossipEntry.newListing listing).valid chain then
        stores.marketplace.insert listing.assetId listing
      else stores.marketplace := by
  unfold handleGossip
  split
  · rfl
  · rfl

/-- Of an asset the store has the last valid listing that was received, whatever was there before. -/
theorem lookup_receiveListings (chain : ChainState P) (stores : GossipStores P)
    (received : List (Listing P)) (assetId : String) :
    (receiveListings chain stores received).marketplace.lookup assetId =
      ((received.filter fun listing => (GossipEntry.newListing listing).valid chain &&
        listing.assetId == assetId).getLast?).or (stores.marketplace.lookup assetId) := by
  induction received using List.reverseRecOn with
  | nil => rfl
  | append_singleton received listing ih =>
      rw [receiveListings, List.foldl_append, List.foldl_cons, List.foldl_nil, ← receiveListings,
        marketplace_handleGossip, List.filter_append]
      by_cases hvalid : (GossipEntry.newListing listing).valid chain = true
      · by_cases hid : listing.assetId = assetId
        · subst hid
          simp [hvalid, Finmap.lookup_insert]
        · rw [if_pos hvalid, Finmap.lookup_insert_of_ne _ (Ne.symm hid), ih]
          simp [hid]
      · rw [if_neg hvalid, ih]
        simp [hvalid]

/-- When all of them are valid listings of the asset, that is the last one. -/
theorem lookup_receiveListings_of_valid {chain : ChainState P} {assetId : String}
    {received : List (Listing P)} (hsome : received ≠ [])
    (hvalid : ∀ listing ∈ received,
      (GossipEntry.newListing listing).valid chain = true ∧ listing.assetId = assetId)
    (stores : GossipStores P) :
    (receiveListings chain stores received).marketplace.lookup assetId = received.getLast? := by
  have hkept : (received.filter fun listing => (GossipEntry.newListing listing).valid chain &&
      listing.assetId == assetId) = received := by
    rw [List.filter_eq_self]
    intro listing hlisting
    simp [hvalid listing hlisting]
  rw [lookup_receiveListings, hkept, List.getLast?_eq_getLast_of_ne_nil hsome, Option.some_or]

/-- **Listings follow delivery.** Two nodes that receive the same valid listings of an asset, each in
its own order and any number of times, keep the one that each received last; they agree exactly when
that is the same one. -/
theorem listing_received_last (chain : ChainState P) {assetId : String}
    {received received' : List (Listing P)}
    (hvalid : ∀ listing ∈ received,
      (GossipEntry.newListing listing).valid chain = true ∧ listing.assetId = assetId)
    (hsame : ∀ listing, listing ∈ received ↔ listing ∈ received') (hsome : received ≠ [])
    (stores stores' : GossipStores P) :
    (receiveListings chain stores received).marketplace.lookup assetId = received.getLast? ∧
      (receiveListings chain stores' received').marketplace.lookup assetId = received'.getLast? ∧
      ((receiveListings chain stores received).marketplace.lookup assetId =
          (receiveListings chain stores' received').marketplace.lookup assetId ↔
        received.getLast? = received'.getLast?) := by
  have hsome' : received' ≠ [] := by
    obtain ⟨listing, hlisting⟩ := List.exists_mem_of_ne_nil _ hsome
    exact List.ne_nil_of_mem ((hsame listing).mp hlisting)
  have hfirst := lookup_receiveListings_of_valid hsome hvalid stores
  have hsecond := lookup_receiveListings_of_valid hsome'
    (fun listing hlisting => hvalid listing ((hsame listing).mpr hlisting)) stores'
  refine ⟨hfirst, hsecond, ?_⟩
  rw [hfirst, hsecond]

section Network

variable {V : Type} {G : SimpleGraph V}

/-- A node of a connected network has a peer unless it is alone. -/
theorem exists_peer (hG : G.Connected) (hV : ¬ Subsingleton V) (u : V) : ∃ v, G.Adj u v := by
  have : Nontrivial V := not_subsingleton_iff_nontrivial.mp hV
  exact hG.preconnected.exists_adj_of_nontrivial u

variable [Fintype V] [DecidableEq V] [DecidableRel G.Adj]

/-- **Rebroadcasts.** In a connected network whose nodes share a chain, the nodes broadcast a valid
entry at most once each, in whatever order messages are delivered, if and only if there is no second
node to send it to. -/
theorem broadcast_once_iff (hG : G.Connected) (chain : ChainState P) {entry : GossipEntry P}
    (hvalid : entry.valid chain = true) (stores : V → GossipStores P) (origin : V) :
    (∀ schedule net, (Flood.inject stores origin entry).run G (handleGossip chain) schedule = some net →
      ∀ v, net.forwarded.count (v, entry) ≤ 1) ↔ Subsingleton V := by
  constructor
  · intro honce
    by_contra hV
    obtain ⟨v, hadj⟩ := exists_peer hG hV origin
    have hmem : (origin, entry) ∈ (Flood.inject stores origin entry).inFlight :=
      Multiset.mem_singleton_self _
    obtain ⟨schedule, net, hrun, -, hcount⟩ :=
      Flood.exists_run (handleGossip_forwards hvalid) hadj 2 hmem
    have hle := honce schedule net hrun origin
    rw [hcount] at hle
    exact absurd hle (by simp [Flood.inject])
  · intro hV schedule net hrun v
    have hiso : ∀ u v, ¬ G.Adj u v := fun u v hadj => hadj.ne (Subsingleton.elim u v)
    exact List.count_le_length.trans (Flood.run_isolated hiso hrun)

end Network

namespace Devnet

/-- A chain on which the key 3 has the asset `relic`. -/
def relicChain : ChainState crypto :=
  linear [genesis, mineAssets (linear [genesis]) (coinbase 1 11) []
    [mintOp "relic" 3 (payment (genesisTotalMinted - 1_000_000) 7 3 5)] []]

/-- The key 3 offers it. -/
def relicListing : GossipEntry crypto :=
  let seller := Commitment.new (P := crypto) 0 (3 : BitVec 256)
  .newListing ⟨"relic", seller, 100, 0, Signature.sign (P := crypto)
    (Listing.signingMessage "relic" seller 100 0) (3 : BitVec 256) (5 : BitVec 256)⟩

def emptyStores : GossipStores crypto := ⟨∅, ∅⟩

/-- The key 3 offers its asset for 100, and later for 90. -/
def relicOffer (price listedAt : UInt64) : Listing crypto :=
  let seller := Commitment.new (P := crypto) 0 (3 : BitVec 256)
  ⟨"relic", seller, price, listedAt, Signature.sign (P := crypto)
    (Listing.signingMessage "relic" seller price listedAt) (3 : BitVec 256) (5 : BitVec 256)⟩

theorem relicOffers_valid :
    ∀ listing ∈ [relicOffer 100 0, relicOffer 90 1],
      (GossipEntry.newListing listing).valid relicChain = true ∧ listing.assetId = "relic" := by
  decide +kernel

theorem relicListing_valid : relicListing.valid relicChain = true :=
  (relicOffers_valid (relicOffer 100 0) (List.mem_cons_self)).1

/-- A node without peers, which receives the offer from its own wallet. -/
theorem relicListing_once :
    relicListing.valid relicChain = true ∧ ∀ schedule net,
      (Flood.inject (fun _ : Unit => emptyStores) () relicListing).run ⊤ (handleGossip relicChain)
        schedule = some net → ∀ v, net.forwarded.count (v, relicListing) ≤ 1 := by
  refine ⟨relicListing_valid, ?_⟩
  exact (broadcast_once_iff SimpleGraph.connected_top relicChain relicListing_valid _ ()).mpr
    inferInstance

/-- Two nodes: the first broadcasts the offer, the second sends it back, the first broadcasts it
again. -/
theorem relicListing_twice :
    ∃ net, (Flood.inject (fun _ : Bool => emptyStores) true relicListing).run ⊤
        (handleGossip relicChain) [(true, relicListing), (false, relicListing), (true, relicListing)]
        = some net ∧ ¬ net.forwarded.count (true, relicListing) ≤ 1 := by
  have hadj : (⊤ : SimpleGraph Bool).Adj true false := by simp
  have hstart : (true, relicListing) ∈
      (Flood.inject (fun _ : Bool => emptyStores) true relicListing).inFlight :=
    Multiset.mem_singleton_self _
  obtain ⟨net, hrun, hmem, hcount⟩ :=
    Flood.round_trip (handleGossip_forwards relicListing_valid) hadj hstart
  obtain ⟨net', hdel, -, hlog⟩ := Flood.deliver_forward (G := (⊤ : SimpleGraph Bool)) hmem
    (handleGossip_forwards relicListing_valid (net.nodes true))
  refine ⟨net', ?_, ?_⟩
  · refine (Flood.run_append _ _ _ [(true, relicListing), (false, relicListing)]
      [(true, relicListing)]).trans ?_
    rw [hrun]
    simpa [Flood.run] using hdel
  · rw [hlog, List.count_append, hcount]
    simp [Flood.inject]

/-- A node that receives the offers in their order, and once more, keeps the later one. -/
theorem relicOffers_in_order :
    (receiveListings relicChain emptyStores [relicOffer 100 0, relicOffer 90 1]).marketplace.lookup
        "relic" = some (relicOffer 90 1) ∧
      (receiveListings relicChain emptyStores
        [relicOffer 90 1, relicOffer 100 0, relicOffer 90 1]).marketplace.lookup "relic" =
          some (relicOffer 90 1) := by
  have hsame : ∀ listing, listing ∈ [relicOffer 100 0, relicOffer 90 1] ↔
      listing ∈ [relicOffer 90 1, relicOffer 100 0, relicOffer 90 1] := by
    simp [or_comm]
  obtain ⟨hfirst, hsecond, -⟩ :=
    listing_received_last relicChain relicOffers_valid hsame (by simp) emptyStores emptyStores
  exact ⟨hfirst, hsecond⟩

/-- Two nodes that receive them in different orders keep different ones, the second the old one. -/
theorem relicOffers_diverge :
    (∀ listing ∈ [relicOffer 100 0, relicOffer 90 1],
      (GossipEntry.newListing listing).valid relicChain = true ∧ listing.assetId = "relic") ∧
      (relicOffer 100 0).listedAt < (relicOffer 90 1).listedAt ∧
      (receiveListings relicChain emptyStores [relicOffer 100 0, relicOffer 90 1]).marketplace.lookup
        "relic" = some (relicOffer 90 1) ∧
      (receiveListings relicChain emptyStores [relicOffer 90 1, relicOffer 100 0]).marketplace.lookup
        "relic" = some (relicOffer 100 0) ∧
      relicOffer 100 0 ≠ relicOffer 90 1 := by
  have hswapped : ∀ listing ∈ [relicOffer 90 1, relicOffer 100 0],
      (GossipEntry.newListing listing).valid relicChain = true ∧ listing.assetId = "relic" :=
    fun listing hlisting => relicOffers_valid listing (by simpa [or_comm] using hlisting)
  refine ⟨relicOffers_valid, by decide, ?_, ?_, by decide +kernel⟩
  · exact lookup_receiveListings_of_valid (by simp) relicOffers_valid emptyStores
  · exact lookup_receiveListings_of_valid (by simp) hswapped emptyStores

end Devnet

end Haze
