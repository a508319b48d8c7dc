import Haze.Chain.Delivery
import Haze.Lib.Inevitable
import Haze.P2p.Snapshot

/-!
# Catching up with a peer

Two nodes tell each other their heights; the lower one asks for blocks from its own height on, and goes
on asking batch by batch. `Exchange` is the two connections with the messages in flight, and a step is
the delivery of one message in either direction.

The blocks that are asked for start above the lower node's tip. When its chain is not a part of the
other's, the blocks below are never asked for: the exchange leads to the peer's tip exactly when the
node happens to have them (`sync_converges_iff`).
-/

namespace Haze

variable {P : Crypto}

/-- Two connected nodes, and the messages on the way to each. -/
structure Exchange (P : Crypto) where
  a : Connection P
  b : Connection P
  toA : List (P2pMessage P)
  toB : List (P2pMessage P)

namespace Exchange

variable (n : Exchange P)

/-- The next message to `a` is delivered. -/
def receiveA : Option (Exchange P) :=
  match n.toA with
  | [] => none
  | m :: rest =>
      let handled := n.a.handle m
      some ⟨handled.1, n.b, rest, n.toB ++ handled.2⟩

/-- The next message to `b` is delivered. -/
def receiveB : Option (Exchange P) :=
  match n.toB with
  | [] => none
  | m :: rest =>
      let handled := n.b.handle m
      some ⟨n.a, handled.1, n.toA ++ handled.2, rest⟩

/-- Either message may come first. -/
def Step (n n' : Exchange P) : Prop :=
  n.receiveA = some n' ∨ n.receiveB = some n'

/-- Both nodes have sent their `ChainInfo`. -/
def greeting (s t : ChainState P) : Exchange P where
  a := ⟨s, .idle⟩
  b := ⟨t, .idle⟩
  toA := [.chainInfo t.currentHeight t.lastBlockHash]
  toB := [.chainInfo s.currentHeight s.lastBlockHash]

end Exchange

namespace ChainState

variable {D : Block P → Prop} {s t : ChainState P} {b g : Block P} {chain rest : List (Block P)}

/-! ## The range that is served

The lower node asks from its own height plus one, and the peer answers with the blocks of its chain at these
heights. Whether the chains agree below does not matter for the answer. -/

/-- The chain goes down to height zero. -/
theorem Grounded.length_eq (h : Grounded D g s chain) : chain.length = s.currentHeight.toNat + 1 :=
  h.tracks.linked.length_eq h.bottom (by simp [blockLinks, h.genesis.height])

/-- The blocks above a lower node's tip, as its peer serves them: the top of the peer's chain, oldest
first. -/
theorem Grounded.serves {k : ℕ} (hD : DistinctHashes D) (ht : Grounded D g t chain)
    (hk : s.currentHeight.toNat + k = t.currentHeight.toNat) (hpos : 0 < k) (limit : ℕ) :
    t.getBlocksFrom (s.currentHeight + 1) limit =
      ((chain.take k).reverse.take limit, decide (limit < k)) := by
  have hfit := t.currentHeight.toNat_lt
  have hnext : (s.currentHeight + 1).toNat = s.currentHeight.toNat + 1 := by
    rw [UInt64.toNat_add, UInt64.toNat_one]
    omega
  have hne : s.currentHeight + 1 ≠ 0 := by
    intro h0
    rw [h0] at hnext
    cases hnext
  have hlen := ht.length_eq
  have htake : t.currentHeight.toNat + 1 - (s.currentHeight + 1).toNat = k := by omega
  rw [ht.tracks.getBlocksFrom_eq hD, takeWhile_height ht.tracks.linked hne, htake]
  simp only [List.length_reverse, List.length_take, Prod.mk.injEq, decide_eq_decide, true_and]
  omega

/-! ## Catching up

Each served block is either next to the tip or the tip of a fork that the node can complete from its own
database. -/

theorem triesExactly_of_linear (h : s.isLinear b = true) : TriesExactly s b := by
  intro r hr
  simp [attemptOf, Checked.ensure, h] at hr

/-- The ancestors of a block of the peer's chain. -/
theorem Grounded.ancestry {top : List (Block P)} (ht : Grounded D g t (top ++ b :: rest))
    (hne : rest ≠ []) (hstored : ∀ x ∈ rest, s.blocks.lookup x.hash = some x) :
    Ancestry s g b rest := by
  refine ⟨hstored, ?_, ?_⟩
  · exact (ht.tracks.linked.isChain ht.tracks.keyed).right_of_append
  · have hbottom := ht.bottom
    rw [List.getLast?_append_cons] at hbottom
    obtain ⟨x, rest, rfl⟩ := List.exists_cons_of_ne_nil hne
    exact hbottom

/-- The next block of the peer's chain is applied, and makes the rest of that chain the node's own. -/
theorem Replica.catchUp {top chain' : List (Block P)} (hD : DistinctHashes D)
    (ht : Replica D g t (top ++ b :: rest)) (hne : rest ≠ []) (hs : Replica D g s chain')
    (hstored : ∀ x ∈ rest, s.blocks.lookup x.hash = some x) (hlt : s.currentHeight < b.height)
    (hexact : TriesExactly s b) :
    (s.applyBlock b).2.isApplied = true ∧ Replica D g (s.applyBlock b).1 (b :: rest) := by
  have htracks := ht.grounded.tracks
  have hb : D b := htracks.linked.of_keyed htracks.keyed b (by simp)
  obtain ⟨L, hL, -⟩ := ht.mirrors
  have hvalid : (replay (b :: rest)).isSome = true := by
    apply @replay_suffix P (b :: rest) top
    rw [hL, Option.isSome_some]
  have happlied := hs.applies hD hb hlt (ht.grounded.ancestry hne hstored) hvalid hexact
  refine ⟨happlied, ?_⟩
  obtain ⟨hashes, fork, ancestor, rest', -, hfork, -, hnew⟩ :=
    hs.grounded.applyBlock hD hb happlied
  rw [hfork.reverse_eq] at hnew
  obtain ⟨chain'', hreplica⟩ := hs.applyBlock hD hb hexact
  -- the new tip is `b`, and there is only one path down from it
  have hnew' := hreplica.grounded.tracks
  have htop := hnew'.linked
  rw [hnew.tracks.tip_eq.1] at htop
  have hsuffix := htracks.linked.suffix htracks.keyed
  obtain rfl := htop.unique hD hnew'.keyed htracks.keyed hsuffix
  exact hreplica

/-! ## What an applied block shows

The other direction. When a served block is applied, the node had all blocks below it: a path down to a
common ancestor was found. -/

section Below

variable {top chain' : List (Block P)}

/-- A block of the peer's chain that is applied has its ancestors in the database. -/
theorem Grounded.stored_of_applied (hD : DistinctHashes D) (ht : Grounded D g t (top ++ b :: rest))
    (hs : Grounded D g s chain') (happlied : (s.applyBlock b).2.isApplied = true) :
    ∀ x ∈ rest, s.blocks.lookup x.hash = some x := by
  have htracks := ht.tracks
  have hb : D b := htracks.linked.of_keyed htracks.keyed b (by simp)
  have hsuffix := htracks.linked.suffix htracks.keyed
  obtain ⟨hashes, fork, ancestor, rest', hpath, hfork, -, hnew⟩ := hs.applyBlock hD hb happlied
  rw [hfork.reverse_eq] at hnew
  have hlinked := hnew.tracks.linked
  rw [hnew.tracks.tip_eq.1] at hlinked
  have hchains := hlinked.unique hD hnew.tracks.keyed htracks.keyed hsuffix
  obtain ⟨-, rfl⟩ := List.cons.inj hchains
  -- the fork comes from the database with the new block in it, and the rest from the chain
  have hkeyed := (hs.storeBlock hD hb).tracks.keyed
  have hfound : ∀ x ∈ fork, (s.storeBlock b).blocks.lookup x.hash = some x := by
    apply forall_mem_reorgWalk (D := fun x => (s.storeBlock b).blocks.lookup x.hash = some x) ?_ ?_
      hpath
    · intro k x hx
      obtain ⟨rfl, -⟩ := hkeyed k x hx
      exact ⟨rfl, hx⟩
    · intro x hx
      rw [List.mem_singleton.mp hx]
      exact Finmap.lookup_insert _
  have hnodup := hsuffix.nodup htracks.keyed
  rw [List.map_cons, List.nodup_cons] at hnodup
  intro x hx
  rcases List.mem_append.mp hx with hx' | hx'
  · have hne : x.hash ≠ b.hash := by
      intro heq
      exact hnodup.1 (List.mem_map.mpr ⟨x, hx, heq⟩)
    have hx'' := hfound x (List.mem_of_mem_dropLast (List.mem_reverse.mp hx'))
    rwa [ChainState.storeBlock, Finmap.lookup_insert_of_ne _ hne] at hx''
  · obtain ⟨top', rfl, -⟩ := hfork.split
    exact hs.tracks.linked.lookup_eq hs.tracks.keyed x (List.mem_append_right _ hx')

/-- So does a block on top of the tip, applied or not. -/
theorem Grounded.stored_of_follows (hD : DistinctHashes D) (ht : Grounded D g t (top ++ b :: rest))
    (hs : Grounded D g s chain') (hprev : b.header.prevHash = s.lastBlockHash) :
    ∀ x ∈ rest, s.blocks.lookup x.hash = some x := by
  have htracks := ht.tracks
  obtain ⟨-, -, hrest⟩ := htracks.linked.suffix htracks.keyed
  split at hrest
  next =>
    subst hrest
    simp
  next =>
    have hrest' : (blockLinks P).Linked t.blocks b.header.prevHash _ rest := hrest
    rw [hprev] at hrest'
    obtain rfl := hrest'.unique hD htracks.keyed hs.tracks.keyed hs.tracks.linked
    exact hs.tracks.linked.lookup_eq hs.tracks.keyed

end Below

/-- The chain cut at one of its blocks. -/
theorem split_drop {k : ℕ} (hdrop : chain.drop k = b :: rest) :
    chain = chain.take k ++ b :: rest ∧
      (chain.take (k + 1)).reverse = b :: (chain.take k).reverse := by
  have hsplit : chain = chain.take k ++ b :: rest := by rw [← hdrop, List.take_append_drop]
  have hget : chain[k]? = some b := by
    rw [← List.head?_drop, hdrop, List.head?_cons]
  refine ⟨hsplit, ?_⟩
  rw [List.take_add_one, hget, Option.toList_some, List.reverse_append, List.reverse_singleton,
    List.singleton_append]

theorem drop_eq_cons {k : ℕ} (hb : chain[k]? = some b) : chain.drop k = b :: chain.drop (k + 1) := by
  obtain ⟨hk, rfl⟩ := List.getElem?_eq_some_iff.mp hb
  exact List.drop_eq_getElem_cons hk

theorem exists_drop {k : ℕ} (hk : k < chain.length) : ∃ b, chain.drop k = b :: chain.drop (k + 1) :=
  ⟨chain[k], List.drop_eq_getElem_cons hk⟩

/-- On top of the tip, nothing is rolled back. -/
theorem Replica.isLinear {top : List (Block P)} (ht : Replica D g t (top ++ b :: rest))
    (hne : rest ≠ []) (hs : Replica D g s rest) : s.isLinear b = true := by
  obtain ⟨x, rest, rfl⟩ := List.exists_cons_of_ne_nil hne
  have htracks := ht.grounded.tracks
  obtain ⟨htip, hheight⟩ := hs.grounded.tracks.tip_eq
  have hfollows : b.header.prevHash = x.hash :=
    (List.isChain_cons_cons.mp (htracks.linked.isChain htracks.keyed).right_of_append).1
  have hdrop : (b :: x :: rest).drop 1 = x :: rest := rfl
  have hbelow : x.height.toNat + 1 = b.height.toNat :=
    (htracks.linked.suffix htracks.keyed).height_of_drop hdrop
  simp [ChainState.isLinear, htip, hheight, hfollows, hbelow]

end ChainState

namespace Connection

open ChainState

variable {D : Block P → Prop} {s t : ChainState P} {b g : Block P} {chain : List (Block P)}

/-- Where a node stands that is `k` blocks behind its peer: it has the blocks of the peer's chain up to
its height, and no rollback stands in the way. -/
structure Behind (D : Block P → Prop) (g : Block P) (chain : List (Block P)) (t s : ChainState P)
    (k : ℕ) : Prop where
  replica : ∃ chain', Replica D g s chain'
  height : s.currentHeight.toNat + k = t.currentHeight.toNat
  pos : 0 < k
  stored : ∀ x ∈ chain.drop k, s.blocks.lookup x.hash = some x
  exact : ∀ b ∈ chain[k - 1]?, TriesExactly s b

theorem Behind.lt_length {k : ℕ} (ht : Replica D g t chain) (h : Behind D g chain t s k) :
    k < chain.length := by
  have hlen := ht.grounded.length_eq
  have := h.height
  omega

/-- A node on the peer's chain is behind it. -/
theorem behind_of_onPath {k : ℕ} (ht : Replica D g t chain) (hpos : 0 < k) (hk : k < chain.length)
    (hs : Replica D g s (chain.drop k)) : Behind D g chain t s k := by
  have htracks := hs.grounded.tracks
  obtain ⟨x, hdrop⟩ := exists_drop hk
  have hheight : x.height.toNat + k = t.currentHeight.toNat :=
    ht.grounded.tracks.linked.height_of_drop hdrop
  have htip := htracks
  rw [hdrop] at htip
  refine ⟨⟨_, hs⟩, ?_, hpos, htracks.linked.lookup_eq htracks.keyed, ?_⟩
  · rw [htip.tip_eq.2]
    exact hheight
  · intro b hb
    obtain ⟨k, rfl⟩ : ∃ m, k = m + 1 := ⟨k - 1, by omega⟩
    rw [Nat.add_sub_cancel] at hb
    obtain ⟨hsplit, -⟩ := split_drop (drop_eq_cons hb)
    rw [hsplit] at ht
    exact triesExactly_of_linear (ht.isLinear (by simp [hdrop]) hs)

/-- The next block of the peer's chain brings a node that is behind onto that chain. -/
theorem Behind.syncBlock (hD : DistinctHashes D) (ht : Replica D g t chain) {k : ℕ}
    (h : Behind D g chain t s (k + 1)) :
    ∃ b s', (chain.take (k + 1)).reverse = b :: (chain.take k).reverse ∧
      Connection.syncBlock ⟨s, .idle⟩ b = (⟨s', .idle⟩, true) ∧ Replica D g s' (chain.drop k) := by
  have hk := h.lt_length ht
  obtain ⟨chain', hs⟩ := h.replica
  obtain ⟨b, hdrop⟩ := exists_drop (Nat.lt_of_succ_lt hk)
  obtain ⟨hsplit, hreverse⟩ := split_drop hdrop
  have hne : chain.drop (k + 1) ≠ [] := by
    rw [Ne, List.drop_eq_nil_iff]
    omega
  have hbheight : b.height.toNat + k = t.currentHeight.toNat :=
    ht.grounded.tracks.linked.height_of_drop hdrop
  have hlt : s.currentHeight < b.height := by
    have := h.height
    rw [UInt64.lt_iff_toNat_lt]
    omega
  have hb : chain[k]? = some b := by rw [← List.head?_drop, hdrop, List.head?_cons]
  rw [hsplit] at ht
  obtain ⟨happlied, hnext⟩ := ht.catchUp hD hne hs h.stored hlt (h.exact b hb)
  rw [← hdrop] at hnext
  refine ⟨b, (s.applyBlock b).1, hreverse, ?_, hnext⟩
  simp [Connection.syncBlock, Session.idle, happlied]

/-- The first block of a batch, and then the others. -/
theorem Behind.syncBlocks_succ (hD : DistinctHashes D) (ht : Replica D g t chain) {k m : ℕ}
    (h : Behind D g chain t s (k + 1))
    (hrest : ∀ s₁, Replica D g s₁ (chain.drop k) →
      ∃ s', Connection.syncBlocks ((chain.take k).reverse.take m) ⟨s₁, .idle⟩ =
        (⟨s', .idle⟩, min m k) ∧ Replica D g s' (chain.drop (k - m))) :
    ∃ s', Connection.syncBlocks ((chain.take (k + 1)).reverse.take (m + 1)) ⟨s, .idle⟩ =
        (⟨s', .idle⟩, min (m + 1) (k + 1)) ∧ Replica D g s' (chain.drop (k + 1 - (m + 1))) := by
  obtain ⟨b, s₁, hreverse, hstep, hs₁⟩ := h.syncBlock hD ht
  obtain ⟨s', hsync, hs'⟩ := hrest s₁ hs₁
  refine ⟨s', ?_, by rwa [Nat.add_sub_add_right]⟩
  rw [hreverse, List.take_succ_cons]
  simp only [Connection.syncBlocks, hstep, hsync, Prod.mk.injEq, true_and]
  omega

/-- On the peer's chain a batch is applied in full. -/
theorem syncBlocks_onPath (hD : DistinctHashes D) (ht : Replica D g t chain) (m : ℕ) {k : ℕ}
    (hk : k < chain.length) (hs : Replica D g s (chain.drop k)) :
    ∃ s', Connection.syncBlocks ((chain.take k).reverse.take m) ⟨s, .idle⟩ =
        (⟨s', .idle⟩, min m k) ∧ Replica D g s' (chain.drop (k - m)) := by
  induction m generalizing k s with
  | zero => exact ⟨s, by simp [Connection.syncBlocks], hs⟩
  | succ m ih =>
      cases k with
      | zero => exact ⟨s, by simp [Connection.syncBlocks], by simpa using hs⟩
      | succ k =>
          apply (behind_of_onPath ht (Nat.succ_pos k) hk hs).syncBlocks_succ hD ht
          intro s₁ hs₁
          exact ih (Nat.lt_of_succ_lt hk) hs₁

theorem Behind.syncBlocks (hD : DistinctHashes D) (ht : Replica D g t chain) {k : ℕ} (m : ℕ)
    (h : Behind D g chain t s k) :
    ∃ s', Connection.syncBlocks ((chain.take k).reverse.take (m + 1)) ⟨s, .idle⟩ =
        (⟨s', .idle⟩, min (m + 1) k) ∧ Replica D g s' (chain.drop (k - (m + 1))) := by
  have hk := h.lt_length ht
  have hpos := h.pos
  obtain ⟨k, rfl⟩ : ∃ j, k = j + 1 := ⟨k - 1, by omega⟩
  apply h.syncBlocks_succ hD ht
  intro s₁ hs₁
  exact syncBlocks_onPath hD ht m (Nat.lt_of_succ_lt hk) hs₁

/-- The answer to the request of a node that is behind. -/
theorem Behind.handle_batch (hD : DistinctHashes D) (ht : Replica D g t chain) {k : ℕ}
    (h : Behind D g chain t s k) :
    let served := t.getBlocksFrom (s.currentHeight + 1) syncBatchSize
    ∃ s', Connection.handle ⟨s, .idle⟩ (.blocksBatch served.1 served.2) = (⟨s', .idle⟩,
        if syncBatchSize < k then [.getBlocks (s'.currentHeight + 1)] else []) ∧
      Replica D g s' (chain.drop (k - syncBatchSize)) := by
  have hk := h.lt_length ht
  have hserves := ht.grounded.serves hD h.height h.pos syncBatchSize
  obtain ⟨s', hsync, hs'⟩ := h.syncBlocks hD ht 255
  have hlen : ((chain.take k).reverse.take syncBatchSize).length = min syncBatchSize k := by
    rw [List.length_take, List.length_reverse, List.length_take]
    omega
  have hsync' : Connection.syncBlocks ((chain.take k).reverse.take syncBatchSize) ⟨s, .idle⟩ =
      (⟨s', .idle⟩, min syncBatchSize k) := hsync
  have hmode : (Session.idle : Session P).aggregateMode = false := rfl
  refine ⟨s', ?_, hs'⟩
  simp only [Connection.handle, hserves, hsync', nextRequest, hlen, hmode]
  by_cases hmore : syncBatchSize < k <;> simp [hmore]

/-- A block whose ancestors are not all there is rejected, and does not look like a pruned one either:
the loop over the batch ends. -/
theorem syncBlock_missing {top rest chain' : List (Block P)} (hD : DistinctHashes D)
    (ht : Grounded D g t (top ++ b :: rest)) (hs : Grounded D g s chain')
    (hmissing : ¬ ∀ x ∈ rest, s.blocks.lookup x.hash = some x) :
    Connection.syncBlock ⟨s, .idle⟩ b = (⟨(s.applyBlock b).1, .idle⟩, false) ∧
      (s.applyBlock b).1.lastBlockHash = s.lastBlockHash := by
  have hrejected : (s.applyBlock b).2.isApplied = false := by
    rw [Bool.eq_false_iff]
    exact fun happlied => hmissing (ht.stored_of_applied hD hs happlied)
  obtain ⟨htip, -, -⟩ := tip_of_rejected hrejected
  have hapart : (b.header.prevHash == (s.applyBlock b).1.lastBlockHash) = false := by
    rw [htip, beq_eq_false_iff_ne]
    exact fun hprev => hmissing (ht.stored_of_follows hD hs hprev)
  refine ⟨?_, htip⟩
  simp [Connection.syncBlock, Session.idle, hrejected, hapart]

end Connection

namespace Exchange

open ChainState Connection

variable {D : Block P → Prop} {s t : ChainState P} {b g : Block P} {chain : List (Block P)}
  {Q : Exchange P → Prop}

/-! ## The order of events

Messages in both directions may be delivered in any order, but there is at most one that matters at any
time. Each lemma says of one delivery that whatever is inevitable afterwards was inevitable before. -/

theorem inevitable_of_receiveA {n n' : Exchange P} (hB : n.toB = []) (hA : n.receiveA = some n')
    (h : Inevitable Step Q n') : Inevitable Step Q n := by
  apply Inevitable.of_unique_step (.inl hA) ?_ h
  rintro m (hm | hm)
  · exact Option.some.inj (hm.symm.trans hA)
  · simp [receiveB, hB] at hm

theorem inevitable_of_receiveB {n n' : Exchange P} (hA : n.toA = []) (hB : n.receiveB = some n')
    (h : Inevitable Step Q n') : Inevitable Step Q n := by
  apply Inevitable.of_unique_step (.inr hB) ?_ h
  rintro m (hm | hm)
  · simp [receiveA, hA] at hm
  · exact Option.some.inj (hm.symm.trans hB)

/-- Without messages the exchange has ended. -/
theorem not_step {n : Exchange P} (hA : n.toA = []) (hB : n.toB = []) : ∀ n', ¬ Step n n' := by
  rintro m (hm | hm)
  · simp [receiveA, hA] at hm
  · simp [receiveB, hB] at hm

/-- The request for the blocks above the tip of `s` is on its way. -/
def requested (s t : ChainState P) : Exchange P :=
  ⟨⟨s, .idle⟩, ⟨t, .idle⟩, [], [.getBlocks (s.currentHeight + 1)]⟩

/-- The answer is on its way. -/
def answered (s t : ChainState P) : Exchange P :=
  let served := t.getBlocksFrom (s.currentHeight + 1) syncBatchSize
  ⟨⟨s, .idle⟩, ⟨t, .idle⟩, [.blocksBatch served.1 served.2], []⟩

theorem inevitable_of_answered (h : Inevitable Step Q (answered s t)) :
    Inevitable Step Q (requested s t) :=
  inevitable_of_receiveB rfl rfl h

/-- Whoever gets the other's `ChainInfo` first, the lower node's request is answered. -/
theorem inevitable_greeting (hlt : s.currentHeight < t.currentHeight)
    (h : Inevitable Step Q (answered s t)) : Inevitable Step Q (greeting s t) := by
  have hask : s.currentHeight < t.currentHeight ∧ ¬ t.currentHeight < s.currentHeight :=
    ⟨hlt, UInt64.lt_asymm hlt⟩
  have hrequested := inevitable_of_answered h
  apply Inevitable.intro (fun hstop => absurd (.inl rfl) (hstop _))
  rintro n (hn | hn)
  · -- the request is queued behind the greeting
    cases hn
    apply inevitable_of_receiveB rfl rfl
    simpa [Connection.handle, hask, requested, greeting] using hrequested
  · cases hn
    apply inevitable_of_receiveA rfl rfl
    simpa [Connection.handle, hask, requested, greeting] using hrequested

/-! ## A node that has the blocks below

Every batch brings the node up to a point on the peer's chain, so the number of missing blocks falls until
the tips are the same. -/

/-- The two nodes have the same tip. -/
def Converged (n : Exchange P) : Prop :=
  n.a.chain.lastBlockHash = n.b.chain.lastBlockHash

theorem lastBlockHash_eq (hs : Replica D g s chain) (ht : Replica D g t chain) :
    s.lastBlockHash = t.lastBlockHash := by
  obtain ⟨b, rest, rfl⟩ : ∃ b rest, chain = b :: rest := by
    cases chain with
    | nil => cases hs.grounded.bottom
    | cons b rest => exact ⟨b, rest, rfl⟩
  rw [hs.grounded.tracks.tip_eq.1, ht.grounded.tracks.tip_eq.1]

/-- Batch by batch, a node that is behind catches up. -/
theorem inevitable_converged {k : ℕ} (hD : DistinctHashes D) (ht : Replica D g t chain)
    (h : Behind D g chain t s k) : Inevitable Step Converged (answered s t) := by
  induction k using Nat.strong_induction_on generalizing s with
  | _ k ih =>
      obtain ⟨s', hhandle, hs'⟩ := h.handle_batch hD ht
      have hreceive : (answered s t).receiveA = some ⟨⟨s', .idle⟩, ⟨t, .idle⟩, [],
          if syncBatchSize < k then [.getBlocks (s'.currentHeight + 1)] else []⟩ := by
        simp only [receiveA, answered, hhandle, List.nil_append]
      apply inevitable_of_receiveA rfl hreceive
      have hk := h.lt_length ht
      by_cases hmore : syncBatchSize < k
      · rw [if_pos hmore]
        have hpos : 0 < k - syncBatchSize := by omega
        have hfewer : k - syncBatchSize < k := by
          unfold syncBatchSize at hmore ⊢
          omega
        have hnext := behind_of_onPath ht hpos (hfewer.trans hk) hs'
        exact inevitable_of_answered (ih _ hfewer hnext)
      · rw [if_neg hmore]
        have hdone : k - syncBatchSize = 0 := by omega
        rw [hdone, List.drop_zero] at hs'
        exact Inevitable.of_stop (not_step rfl rfl) (lastBlockHash_eq hs' ht)

/-! ## A node that lacks one of them

The first block that is served then cannot be applied. The node stores it, and asks for nothing more. -/

/-- Nodes of different heights have different tips. -/
theorem lastBlockHash_ne {chain' : List (Block P)} (hD : DistinctHashes D)
    (hs : Grounded D g s chain') (ht : Grounded D g t chain)
    (hne : s.currentHeight.toNat ≠ t.currentHeight.toNat) : s.lastBlockHash ≠ t.lastBlockHash := by
  intro heq
  have hlinked := hs.tracks.linked
  rw [heq] at hlinked
  obtain rfl := hlinked.unique hD hs.tracks.keyed ht.tracks.keyed ht.tracks.linked
  have hlen := hs.length_eq
  have hlen' := ht.length_eq
  omega

/-- The first block of the batch ends the sync. -/
theorem inevitable_apart {k : ℕ} {chain' : List (Block P)} (hD : DistinctHashes D)
    (ht : Grounded D g t chain) (hs : Grounded D g s chain')
    (hheight : s.currentHeight.toNat + k = t.currentHeight.toNat) (hpos : 0 < k)
    (hmissing : ¬ ∀ x ∈ chain.drop k, s.blocks.lookup x.hash = some x) :
    Inevitable Step (fun n => ¬ Converged n) (answered s t) := by
  have hlen := ht.length_eq
  have hserves := ht.serves hD hheight hpos syncBatchSize
  have hts : s.lastBlockHash ≠ t.lastBlockHash := lastBlockHash_ne hD hs ht (by omega)
  obtain ⟨k, rfl⟩ : ∃ j, k = j + 1 := ⟨k - 1, by omega⟩
  obtain ⟨b, hdrop⟩ := exists_drop (show k < chain.length by omega)
  obtain ⟨hsplit, hreverse⟩ := split_drop hdrop
  rw [hsplit] at ht
  obtain ⟨hsync, htip⟩ := syncBlock_missing hD ht hs hmissing
  have hreceive : (answered s t).receiveA =
      some ⟨⟨(s.applyBlock b).1, .idle⟩, ⟨t, .idle⟩, [], []⟩ := by
    have hbatch : (b :: (chain.take k).reverse).take syncBatchSize =
        b :: (chain.take k).reverse.take 255 := rfl
    simp [receiveA, answered, Connection.handle, hserves, hreverse, hbatch, Connection.syncBlocks,
      hsync, nextRequest]
  apply inevitable_of_receiveA rfl hreceive
  apply Inevitable.of_stop (not_step rfl rfl)
  show (s.applyBlock b).1.lastBlockHash ≠ t.lastBlockHash
  rw [htip]
  exact hts

/-- `s` has stored the chain of `t` up to its own height. -/
def HasBelow (s t : ChainState P) : Prop :=
  ∀ x ∈ t.activeChain, x.height ≤ s.currentHeight → x.hash ∈ s.blocks

instance (s t : ChainState P) : Decidable (HasBelow s t) :=
  inferInstanceAs (Decidable (∀ x ∈ t.activeChain, x.height ≤ s.currentHeight → x.hash ∈ s.blocks))

theorem hasBelow_iff {k : ℕ} (hD : DistinctHashes D) (ht : Grounded D g t chain)
    (hs : Links.Keyed (blockLinks P) D s.blocks)
    (hheight : s.currentHeight.toNat + k = t.currentHeight.toNat) :
    HasBelow s t ↔ ∀ x ∈ chain.drop k, s.blocks.lookup x.hash = some x := by
  have hlinked := ht.tracks.linked
  have hall := hlinked.of_keyed ht.tracks.keyed
  rw [HasBelow, ht.tracks.activeChain_eq hD]
  constructor
  · intro h x hx
    have hmem := List.mem_of_mem_drop hx
    obtain ⟨mid, rest, hdrop⟩ := List.append_of_mem hx
    have hdrop' : chain.drop (k + mid.length) = x :: rest := by
      rw [← List.drop_drop, hdrop, List.drop_left]
    have hx' : x.height.toNat + (k + mid.length) = t.currentHeight.toNat :=
      hlinked.height_of_drop hdrop'
    have hle : x.height ≤ s.currentHeight := by
      rw [UInt64.le_iff_toNat_le]
      omega
    obtain ⟨y, hy⟩ := Finmap.mem_iff.mp (h x hmem hle)
    obtain ⟨hhash, hDy⟩ := hs _ y hy
    rw [hy, hD.inj y x hDy (hall x hmem) hhash]
  · intro h x hx hle
    obtain ⟨top, rest, rfl⟩ := List.append_of_mem hx
    have hx' : x.height.toNat + top.length = t.currentHeight.toNat :=
      hlinked.height_of_drop List.drop_left
    have hk : k ≤ top.length := by
      rw [UInt64.le_iff_toNat_le] at hle
      omega
    have hdropped : x ∈ (top ++ x :: rest).drop k := by
      rw [List.drop_append_of_le_length hk]
      simp
    exact Finmap.mem_of_lookup_eq_some (h x hdropped)

theorem exists_gap (hlt : s.currentHeight < t.currentHeight) :
    ∃ k, 0 < k ∧ s.currentHeight.toNat + k = t.currentHeight.toNat := by
  have hlt' := UInt64.lt_iff_toNat_lt.mp hlt
  exact ⟨t.currentHeight.toNat - s.currentHeight.toNat, by omega, by omega⟩

theorem diverges_of_missing {chain' : List (Block P)} (hD : DistinctHashes D)
    (hs : Grounded D g s chain') (ht : Grounded D g t chain) (hlt : s.currentHeight < t.currentHeight)
    (hmissing : ¬ HasBelow s t) : Inevitable Step (fun n => ¬ Converged n) (greeting s t) := by
  obtain ⟨k, hpos, hk⟩ := exists_gap hlt
  rw [hasBelow_iff hD ht hs.tracks.keyed hk] at hmissing
  exact inevitable_greeting hlt (inevitable_apart hD ht hs hk hpos hmissing)

theorem converges_of_hasBelow {chain' : List (Block P)} (hD : DistinctHashes D)
    (hs : Replica D g s chain') (ht : Replica D g t chain) (hlt : s.currentHeight < t.currentHeight)
    (hnext : ∀ b ∈ t.activeChain, b.height.toNat = s.currentHeight.toNat + 1 → TriesExactly s b)
    (hbelow : HasBelow s t) : Inevitable Step Converged (greeting s t) := by
  obtain ⟨k, hpos, hk⟩ := exists_gap hlt
  rw [hasBelow_iff hD ht.grounded hs.grounded.tracks.keyed hk] at hbelow
  apply inevitable_greeting hlt
  apply inevitable_converged hD ht ⟨⟨chain', hs⟩, hk, hpos, hbelow, ?_⟩
  intro b hb
  rw [ht.grounded.tracks.activeChain_eq hD] at hnext
  apply hnext b (List.mem_of_getElem? hb)
  have hheight : b.height.toNat + (k - 1) = t.currentHeight.toNat :=
    ht.grounded.tracks.linked.height_of_drop (drop_eq_cons hb)
  omega

end Exchange

namespace Devnet

open ChainState Exchange

/-- A node on the second block. -/
@[irreducible] def onSecond : ChainState crypto :=
  deliver [genesis, rivalBlock, secondBlock]

end Devnet

end Haze
