import Haze.Chain.Delivery
import Haze.P2p.Blocks

/-!
# What the gossip of blocks brings about

Every connection has a task of its own. It gives a block to `apply_block`, persists it, clears the
mempool, and only then broadcasts the block, so that a child can overtake its parent between two nodes; and
a block can come twice, or not at all. Nothing is assumed here about the way of a block: any block that
has been sealed may arrive at any node at any time (`Spread.step`), from a broadcast or in a batch.

If each block is sealed on top of the newest one, the blocks form a log. At every moment, each node is in
the state that a beginning of the log leads to, and which beginning that is depends only on what has
arrived: a block counts if all blocks before it had come (`blocks_replicated`). A block that comes too early
is stored. It is taken along by the first block on top of it that arrives when the gap is filled.

Proposals that the proposer's own chain refuses, forks, snapshots and pruned blocks are outside of this.
-/

namespace Haze

variable {P : Crypto}

/-- The first `n` messages of the log count: the last of them has arrived when all before it had. -/
def CaughtUp {M : Type} (log arrived : List M) : ℕ → Prop
  | 0 => True
  | n + 1 => ∃ before m after, arrived = before ++ m :: after ∧ log[n]? = some m ∧
      ∀ x ∈ log.take n, x ∈ before

namespace ChainState

/-! ## Logs

What the nodes of a network build together is a list of blocks, each on top of the one before. Its
beginnings are the chains that nodes can have. -/

/-- The blocks can be applied one after another on top of the genesis block. -/
structure IsLog (g : Block P) (log : List (Block P)) : Prop where
  genesis : IsGenesis g
  distinct : DistinctHashes (· ∈ g :: log)
  replays : (replay (g :: log).reverse).isSome = true

variable {g b : Block P} {s : ChainState P} {log chain path : List (Block P)} {n : ℕ}

theorem IsLog.take (h : IsLog g log) (n : ℕ) : IsLog g (log.take n) := by
  obtain ⟨hg, hD, hreplays⟩ := h
  refine ⟨hg, hD.mono ?_, ?_⟩
  · intro x hx
    rcases List.mem_cons.mp hx with rfl | hx
    · exact List.mem_cons_self
    · exact List.mem_cons_of_mem _ (List.mem_of_mem_take hx)
  · have hsplit : (g :: log).reverse = (log.drop n).reverse ++ (g :: log.take n).reverse := by
      rw [← List.reverse_append, List.cons_append, List.take_append_drop]
    rw [hsplit] at hreplays
    exact replay_suffix hreplays

/-- A beginning of the log is the path down from its last block, whose height is its length. -/
theorem IsLog.lineage (h : IsLog g log) (hn : n ≤ log.length)
    (hb : (g :: log.take n).getLast? = some b) :
    Lineage (g :: log) g b (g :: log.take n).reverse ∧ b.height.toNat = n := by
  obtain ⟨hg, hD, hreplays⟩ := h.take n
  obtain ⟨L, hL⟩ := Option.isSome_iff_exists.mp hreplays
  have htracks := tracks_replay hD (fun x hx => List.mem_reverse.mp hx) hL
  have htop : (g :: log.take n).reverse.head? = some b := by
    rw [List.head?_reverse, hb]
  have hbottom : (g :: log.take n).reverse.getLast? = some g := by
    rw [List.getLast?_reverse]
    rfl
  refine ⟨⟨?_, htracks.linked.isChain htracks.keyed, htop, hbottom⟩, ?_⟩
  · intro x hx
    rcases List.mem_cons.mp (List.mem_reverse.mp hx) with rfl | hx
    · exact List.mem_cons_self
    · exact List.mem_cons_of_mem _ (List.mem_of_mem_take hx)
  · have hzero : (blockLinks P).height g = 0 := by
      show g.height.toNat = 0
      rw [hg.height]
      rfl
    have hlen := htracks.linked.length_eq hbottom hzero
    obtain ⟨rest, hrest⟩ := List.head?_eq_some_iff.mp htop
    rw [hrest] at htracks
    rw [← htracks.tip_eq.2]
    rw [List.length_reverse, List.length_cons, List.length_take, min_eq_left hn] at hlen
    omega

/-- Its blocks stand at the heights one, two and so on. -/
theorem IsLog.height (h : IsLog g log) (hb : log[n]? = some b) : b.height.toNat = n + 1 := by
  have hn : n < log.length := (List.getElem?_eq_some_iff.mp hb).1
  refine (h.lineage hn ?_).2
  rw [List.take_add_one, hb, Option.toList_some, ← List.cons_append, List.getLast?_concat]

/-- There is no other path down from a block of the log. -/
theorem IsLog.exists_take (h : IsLog g log) (hpath : Lineage (g :: log) g b path) :
    ∃ n ≤ log.length, path = (g :: log.take n).reverse ∧ b.height.toNat = n := by
  obtain ⟨n, hn, hb⟩ : ∃ n ≤ log.length, (g :: log.take n).getLast? = some b := by
    rcases List.mem_cons.mp (hpath.mem b (List.mem_of_head? hpath.top)) with rfl | hb
    · exact ⟨0, Nat.zero_le _, rfl⟩
    · obtain ⟨i, hi⟩ := List.getElem?_of_mem hb
      refine ⟨i + 1, (List.getElem?_eq_some_iff.mp hi).1, ?_⟩
      rw [List.take_add_one, hi, Option.toList_some, ← List.cons_append, List.getLast?_concat]
  obtain ⟨hlineage, hheight⟩ := h.lineage hn hb
  exact ⟨n, hn, hpath.unique h.distinct h.genesis hlineage, hheight⟩

theorem IsLog.validOnAncestors (h : IsLog g log) : ValidOnAncestors (g :: log) g := by
  intro b path hpath
  obtain ⟨n, -, rfl, -⟩ := h.exists_take hpath
  exact (h.take n).replays

/-- A node that has blocks of the log only is on a beginning of it. -/
theorem IsLog.chain_eq (h : IsLog g log) (hs : Grounded (· ∈ g :: log) g s chain) :
    ∃ n ≤ log.length, chain = (g :: log.take n).reverse ∧ s.currentHeight.toNat = n := by
  cases chain with
  | nil => cases hs.bottom
  | cons b rest =>
      have htracks := hs.tracks
      have hlineage : Lineage (g :: log) g b (b :: rest) :=
        ⟨htracks.linked.of_keyed htracks.keyed, htracks.linked.isChain htracks.keyed, rfl, hs.bottom⟩
      obtain ⟨n, hn, hchain, hheight⟩ := h.exists_take hlineage
      refine ⟨n, hn, hchain, ?_⟩
      rw [htracks.tip_eq.2]
      exact hheight

/-! ## Nothing is rolled back

All blocks are from one log, so there are no forks and a node never reorganizes: what is not the next block
for it is stored, and applied when the blocks below have arrived. -/

/-- The fork to a higher block of the log starts at the tip. -/
theorem IsLog.hashes_eq_nil {hashes : List Bytes32} {fork : List (Block P)} (h : IsLog g log)
    (hs : Grounded (· ∈ g :: log) g s chain) (hb : b ∈ g :: log) (hlt : s.currentHeight < b.height)
    (hpath : (s.storeBlock b).findReorgPath b = some (hashes, fork)) : hashes = [] := by
  have hstored := hs.storeBlock h.distinct hb
  obtain ⟨ancestor, rest, hfork⟩ := hstored.forkPath h.distinct hpath
  have hmem : ∀ x ∈ fork, x ∈ g :: log :=
    forall_mem_reorgWalk hstored.tracks.keyed (by simpa using hb) hpath
  obtain ⟨top, hchain, rfl⟩ := hfork.split
  have hlinked : chain.IsChain fun child parent => Follows parent child :=
    hs.tracks.linked.isChain hs.tracks.keyed
  -- the fork leads down to the genesis block as well
  have hnew : Lineage (g :: log) g b (fork.reverse ++ ancestor :: rest) := by
    refine ⟨?_, ?_, ?_, ?_⟩
    · intro x hx
      rcases List.mem_append.mp hx with hx | hx
      · exact hmem x (List.mem_reverse.mp hx)
      · apply hs.tracks.linked.of_keyed hs.tracks.keyed x
        rw [hchain]
        exact List.mem_append_right _ hx
    · have hup : (fork.reverse ++ [ancestor]).IsChain fun child parent => Follows parent child := by
        rw [← List.reverse_cons, List.isChain_reverse]
        exact hfork.linked
      rw [hchain] at hlinked
      have hdown : ([ancestor] ++ rest).IsChain fun child parent => Follows parent child :=
        hlinked.right_of_append
      have hall := hup.append_overlap hdown (by simp)
      simpa using hall
    · rw [hfork.reverse_eq]
      rfl
    · have hbottom := hs.bottom
      rw [hchain, List.getLast?_append] at hbottom
      rw [List.getLast?_append]
      simpa using hbottom
  obtain ⟨k, -, hold, hheight⟩ := h.chain_eq hs
  obtain ⟨n, hn, heq, hheight'⟩ := h.exists_take hnew
  have hkn : k < n := by
    have := UInt64.lt_iff_toNat_lt.mp hlt
    omega
  -- and has the whole chain below its end
  have hmid : fork.reverse = ((log.take n).drop k).reverse ++ top := by
    have htake : (log.take n).take k = log.take k := by
      rw [List.take_take, min_eq_left hkn.le]
    have hsplit : (g :: log.take n).reverse =
        ((log.take n).drop k).reverse ++ (g :: log.take k).reverse := by
      rw [← List.reverse_append, List.cons_append, ← htake, List.take_append_drop]
    rw [hsplit, ← hold, hchain, ← List.append_assoc] at heq
    exact List.append_cancel_right heq
  have hfork' : fork = top.reverse ++ (log.take n).drop k := by
    have hback := congrArg List.reverse hmid
    simpa using hback
  have hne : (log.take n).drop k ≠ [] := by
    intro hnil
    rw [List.drop_eq_nil_iff, List.length_take, min_eq_left hn] at hnil
    omega
  rw [List.map_eq_nil_iff, List.eq_nil_iff_forall_not_mem]
  intro x hx
  refine hfork.apart x ?_ (by rw [hchain]; exact List.mem_append_left _ hx)
  rw [hfork', List.dropLast_append_of_ne_nil hne]
  exact List.mem_append_left _ (List.mem_reverse.mpr hx)

theorem IsLog.triesExactly (h : IsLog g log) (hs : Replica (· ∈ g :: log) g s chain)
    (hb : b ∈ g :: log) : TriesExactly s b := by
  rintro ⟨rolled, fork⟩ hr L hL
  simp only [attemptOf, Option.mem_def, Option.bind_eq_bind, Option.bind_eq_some_iff,
    Checked.ensure_eq_some, Bool.and_eq_true, decide_eq_true_eq, Option.pure_def, Option.some.injEq,
    Prod.mk.injEq] at hr
  obtain ⟨_, ⟨-, hlt⟩, ⟨hashes, fork'⟩, hpath, rfl, rfl⟩ := hr
  have hnone := h.hashes_eq_nil hs.grounded hb hlt hpath
  subst hnone
  obtain ⟨L', hL', hm⟩ := hs.mirrors
  rw [List.length_nil, List.drop_zero, hs.grounded.tracks.activeChain_eq h.distinct, hL'] at hL
  obtain rfl := Option.some.inj hL
  exact ⟨hm.agrees.utxos, hm.agrees.kernelExcesses, hm.agrees.activeValidators⟩

/-- One more block of the log arrives. -/
theorem Settled.receive {arrived : List (Block P)} (hlog : IsLog g log)
    (h : Settled g (g :: arrived) s) (hsub : ∀ x ∈ arrived, x ∈ log) (hb : b ∈ log) :
    Settled g (g :: (arrived ++ [b])) (s.applyBlock b).1 := by
  have hall : ∀ x ∈ g :: (arrived ++ [b]), x ∈ g :: log := by
    intro x hx
    rw [List.mem_cons, List.mem_append, List.mem_singleton] at hx
    rcases hx with rfl | hx | rfl
    · exact List.mem_cons_self
    · exact List.mem_cons_of_mem _ (hsub x hx)
    · exact List.mem_cons_of_mem _ hb
  obtain ⟨chain, hreplica⟩ := h.replica
  have hexact : TriesExactly s b := by
    refine hlog.triesExactly (hreplica.mono ?_) (List.mem_cons_of_mem _ hb)
    intro x hx
    apply hall x
    rw [← List.cons_append]
    exact List.mem_append_left _ hx
  exact h.applyBlock (hlog.distinct.mono hall) (hlog.validOnAncestors.mono hall) hexact

/-! ## How far a node is

A block can be delivered before its parent, as blocks sent by different tasks of a node can overtake each
other. It is stored then and not looked at again, so how far a node is depends on the order in which the
blocks arrived. -/

/-- A block arrives complete just when all blocks before it have arrived. -/
theorem IsLog.mem_completeHeights_iff {arrived : List (Block P)} (h : IsLog g log)
    (hsub : ∀ x ∈ arrived, x ∈ log) :
    n ∈ completeHeights (g :: arrived) g ↔ CaughtUp log arrived n := by
  have hall : ∀ x ∈ g :: arrived, x ∈ g :: log := by
    intro x hx
    rcases List.mem_cons.mp hx with rfl | hx
    · exact List.mem_cons_self
    · exact List.mem_cons_of_mem _ (hsub x hx)
  -- the path of blocks below the complete one is a beginning of the log
  constructor
  · rintro ⟨b, ⟨run, path, hpre, hpath⟩, rfl⟩
    obtain ⟨n, hn, rfl, hheight⟩ :=
      h.exists_take (hpath.mono fun x hx => hall x (hpre.subset hx))
    rw [hheight]
    cases n with
    | zero => trivial
    | succ n =>
        have hget : log[n]? = some b := by
          have htop := hpath.top
          rw [List.head?_reverse, List.take_add_one, List.getElem?_eq_getElem hn, Option.toList_some,
            ← List.cons_append, List.getLast?_concat] at htop
          rw [List.getElem?_eq_getElem hn, htop]
        cases run with
        | nil =>
            -- the genesis block is on the path, and is not this block
            have hgen := hpath.mem g (by simp)
            rw [List.nil_append, List.mem_singleton] at hgen
            rw [← hgen, h.genesis.height] at hheight
            cases hheight
        | cons x before =>
            rw [List.cons_append, List.cons_prefix_cons] at hpre
            obtain ⟨rfl, after, hafter⟩ := hpre
            refine ⟨before, b, after, by rw [← hafter]; simp, hget, ?_⟩
            intro y hy
            obtain ⟨i, hi⟩ := List.getElem?_of_mem hy
            rw [List.getElem?_take] at hi
            split at hi
            next hlt =>
              have hheight' := h.height hi
              have hmem := hpath.mem y (by
                rw [List.mem_reverse, List.take_add_one]
                exact List.mem_cons_of_mem _ (List.mem_append_left _ hy))
              rw [List.cons_append, List.mem_cons, List.mem_append, List.mem_singleton] at hmem
              rcases hmem with rfl | hmem | rfl
              · rw [h.genesis.height] at hheight'
                cases hheight'
              · exact hmem
              · omega
            next => cases hi
  -- conversely that beginning, read from the top
  · intro hcaught
    cases n with
    | zero =>
        refine ⟨g, ⟨[], [g], by simp, ⟨by simp, List.IsChain.singleton g, rfl, rfl⟩⟩, ?_⟩
        rw [h.genesis.height]
        rfl
    | succ n =>
        obtain ⟨before, b, after, rfl, hget, hbefore⟩ := hcaught
        have hn : n < log.length := (List.getElem?_eq_some_iff.mp hget).1
        have htake : log.take (n + 1) = log.take n ++ [b] := by
          rw [List.take_add_one, hget, Option.toList_some]
        obtain ⟨hlineage, hheight⟩ := h.lineage (n := n + 1) (b := b) hn (by
          rw [htake, ← List.cons_append, List.getLast?_concat])
        refine ⟨b, ⟨g :: before, _, ?_, ?_, hlineage.linked, hlineage.top, hlineage.bottom⟩, hheight⟩
        · exact ⟨after, by simp⟩
        · intro x hx
          rw [List.mem_reverse, htake, List.mem_cons, List.mem_append] at hx
          rw [List.cons_append, List.mem_cons, List.mem_append]
          rcases hx with rfl | hx | hx
          · exact .inl rfl
          · exact .inr (.inl (hbefore x hx))
          · exact .inr (.inr hx)

end ChainState

/-! ## The network

A block is sealed on top of the newest one, and delivered to a node at any time and in any order after that.
Deliveries from one node to another are not modelled one by one; whatever they are, they come to a sequence
of blocks for each node. -/

/-- The nodes of a network, and how the blocks have spread. -/
structure Spread (V : Type) (P : Crypto) where
  nodes : V → ChainState P
  /-- The blocks that have been sealed, oldest first. -/
  log : List (Block P)
  /-- The blocks that have been given to `apply_block` at a node, oldest first. -/
  arrived : V → List (Block P)

namespace Spread

open ChainState

variable {V : Type} [DecidableEq V]

/-- All nodes are on the genesis block. -/
def start (g : Block P) : Spread V P :=
  ⟨fun _ => (ChainState.new.applyBlock g).1, [], fun _ => []⟩

/-- The block that the next one has to be sealed on. -/
def newest (g : Block P) (net : Spread V P) : Block P :=
  net.log.getLast?.getD g

/-- A block has been given to `apply_block` at a node, which is in this state now. -/
def put (net : Spread V P) (v : V) (state : ChainState P) (b : Block P) : Spread V P :=
  { net with
    nodes := Function.update net.nodes v state
    arrived := Function.update net.arrived v (net.arrived v ++ [b]) }

inductive Event (V : Type) (P : Crypto) where
  /-- A pass of the proposer's loop. -/
  | propose (v : V) (e : Proposer.Env P) (pending : Mempool P)
  /-- The block at this place of the log comes to a node, from wherever. -/
  | arrive (v : V) (i : ℕ)

/-- A pass that puts a block on a tip other than the newest block is no step. -/
def step (g : Block P) (net : Spread V P) : Event V P → Option (Spread V P)
  | .propose v e pending => do
      let (state, sent) := (ChainAct.propose e pending).run (net.nodes v)
      let b ← sent
      Checked.ensure ((net.nodes v).lastBlockHash == (net.newest g).hash)
      return { net.put v state b with log := net.log ++ [b] }
  | .arrive v i => do
      let b ← net.log[i]?
      return net.put v (handleNewBlock (net.nodes v) b).1 b

/-- The network after a run. -/
def run (g : Block P) (events : List (Event V P)) : Option (Spread V P) :=
  events.foldlM (step g) (start g)

/-- A block is put on the newest one and joins the log, or a block of the log comes to a node. -/
theorem step_cases {g : Block P} {net net' : Spread V P} {event : Event V P}
    (h : net.step g event = some net') :
    (∃ v b δ, (net.nodes v).lastBlockHash = (net.newest g).hash ∧
      ((net.nodes v).applyBlock b).2 = .linear δ ∧
      net' = { net.put v ((net.nodes v).applyBlock b).1 b with log := net.log ++ [b] }) ∨
    ∃ v, ∃ b ∈ net.log, net' = net.put v ((net.nodes v).applyBlock b).1 b := by
  cases event with
  | propose v e pending =>
      simp only [step, Option.bind_eq_bind, Option.bind_eq_some_iff, Checked.ensure_eq_some,
        exists_const, beq_iff_eq, Option.pure_def, Option.some.injEq] at h
      obtain ⟨b, hsent, htip, rfl⟩ := h
      obtain ⟨⟨δ, hlinear⟩, -, hstate⟩ := ChainAct.sent_run hsent
      exact .inl ⟨v, b, δ, htip, hlinear, by rw [hstate]⟩
  | arrive v i =>
      simp only [step, Option.bind_eq_bind, Option.bind_eq_some_iff, Option.pure_def,
        Option.some.injEq] at h
      obtain ⟨b, hb, rfl⟩ := h
      exact .inr ⟨v, b, List.mem_of_getElem? hb, rfl⟩

/-- What holds along the way. -/
structure Replicated (g : Block P) (net : Spread V P) : Prop where
  isLog : IsLog g net.log
  settled : ∀ v, Settled g (g :: net.arrived v) (net.nodes v)
  arrived : ∀ v, ∀ b ∈ net.arrived v, b ∈ net.log

variable {g b : Block P} {net net' : Spread V P} {event : Event V P}

omit [DecidableEq V] in
theorem replicated_start (hg : IsGenesis g) (hD : DistinctHashes (· ∈ [g]))
    (happlied : ((ChainState.new : ChainState P).applyBlock g).2.isApplied = true) :
    Replicated g (start g : Spread V P) := by
  obtain ⟨L, hL, -⟩ := (replica_genesis hD hg (List.mem_singleton_self g) happlied).mirrors
  have hlog : IsLog g ([] : List (Block P)) := ⟨hg, hD, by
    show (replay [g]).isSome = true
    rw [hL]
    rfl⟩
  exact ⟨hlog, fun _ => settled_genesis hD hg hlog.validOnAncestors, fun _ b hb => by cases hb⟩

/-- Where a block is put, the others are as before. -/
theorem settled_put {log : List (Block P)} {v : V} (hlog : IsLog g log)
    (hsub : ∀ v, ∀ x ∈ net.arrived v, x ∈ log) (h : ∀ v, Settled g (g :: net.arrived v) (net.nodes v))
    (hb : b ∈ log) (w : V) :
    Settled g (g :: (net.put v ((net.nodes v).applyBlock b).1 b).arrived w)
        ((net.put v ((net.nodes v).applyBlock b).1 b).nodes w) ∧
      ∀ x ∈ (net.put v ((net.nodes v).applyBlock b).1 b).arrived w, x ∈ log := by
  by_cases hw : w = v
  · subst hw
    simp only [put, Function.update_self]
    refine ⟨(h w).receive hlog (hsub w) hb, ?_⟩
    rw [List.forall_mem_append, List.forall_mem_singleton]
    exact ⟨hsub w, hb⟩
  · simp only [put, Function.update_of_ne hw]
    exact ⟨h w, hsub w⟩

omit [DecidableEq V] in
/-- A node whose tip is the newest block has the whole log below it, and the log goes on with the block
that it puts on top. -/
theorem Replicated.isLog_concat {v : V} {δ : AppliedDelta P} (h : Replicated g net)
    (hD : DistinctHashes (· ∈ g :: (net.log ++ [b])))
    (htip : (net.nodes v).lastBlockHash = (net.newest g).hash)
    (hlinear : ((net.nodes v).applyBlock b).2 = .linear δ) : IsLog g (net.log ++ [b]) := by
  obtain ⟨hlog, hsettled, harrived⟩ := h
  obtain ⟨chain, hreplica⟩ := (hsettled v).replica
  have hreplica' : Replica (· ∈ g :: net.log) g (net.nodes v) chain := by
    refine hreplica.mono ?_
    intro x hx
    rcases List.mem_cons.mp hx with rfl | hx
    · exact List.mem_cons_self
    · exact List.mem_cons_of_mem _ (harrived v x hx)
  -- the proposer's node is on the newest block, so it has the whole log
  obtain ⟨n, hn, rfl, hheight⟩ := hlog.chain_eq hreplica'.grounded
  have hwhole : net.log.take n = net.log := by
    obtain ⟨last, hlast⟩ : ∃ last, (g :: net.log.take n).getLast? = some last :=
      ⟨_, List.getLast?_cons⟩
    have hnewest : (g :: net.log.take net.log.length).getLast? = some (net.newest g) := by
      rw [List.take_length, List.getLast?_cons]
      rfl
    obtain ⟨hlineage, hlastHeight⟩ := hlog.lineage hn hlast
    obtain ⟨hlineage', hnewestHeight⟩ := hlog.lineage le_rfl hnewest
    have hsame : last = net.newest g := by
      obtain ⟨rest, hrest⟩ := List.head?_eq_some_iff.mp hlineage.top
      have htracks := hreplica'.grounded.tracks
      rw [hrest] at htracks
      exact hlog.distinct.inj last (net.newest g) (hlineage.mem last (List.mem_of_head? hlineage.top))
        (hlineage'.mem _ (List.mem_of_head? hlineage'.top)) (htracks.tip_eq.1.symm.trans htip)
    rw [hsame, hnewestHeight] at hlastHeight
    exact List.take_of_length_le hlastHeight.le
  rw [hwhole] at hreplica'
  obtain ⟨L, hL, hm⟩ := hreplica'.mirrors
  refine ⟨hlog.genesis, hD, ?_⟩
  have hreverse : (g :: (net.log ++ [b])).reverse = b :: (g :: net.log).reverse := by
    simp
  -- storing the block does not change what the checks look at
  have hagrees : Agrees ((net.nodes v).storeBlock b) L := by
    obtain ⟨h₁, h₂, h₃, h₄, h₅, h₆, h₇, h₈, h₉⟩ := hm.agrees
    exact ⟨h₁, h₂, h₃, h₄, h₅, h₆, h₇, h₈, h₉⟩
  have houtcome := outcome_applyBlock (net.nodes v) b
  generalize (net.nodes v).applyBlock b = r at hlinear houtcome
  cases houtcome with
  | linear _ happly =>
      obtain ⟨c, hcheck, -⟩ := applyLinearBlock_eq_some_iff.mp happly
      rw [hagrees.checkBlock] at hcheck
      rw [hreverse, replay_cons_eq_some.mpr ⟨L, c, hL, hcheck, rfl⟩]
      rfl
  | invalid _ => cases hlinear
  | refused _ => cases hlinear
  | reorg _ _ _ _ _ => cases hlinear

/-- **The step lemma.** -/
theorem Replicated.step (h : Replicated g net) (hstep : net.step g event = some net')
    (hD : DistinctHashes (· ∈ g :: net'.log)) : Replicated g net' := by
  rcases step_cases hstep with ⟨v, b, δ, htip, hlinear, rfl⟩ | ⟨v, b, hb, rfl⟩
  · have hlog := h.isLog_concat hD htip hlinear
    have hput := settled_put (v := v) (b := b) hlog
      (fun w x hx => List.mem_append_left _ (h.arrived w x hx)) h.settled (by simp)
    exact ⟨hlog, fun w => (hput w).1, fun w => (hput w).2⟩
  · have hput := settled_put (v := v) h.isLog h.arrived h.settled hb
    exact ⟨h.isLog, fun w => (hput w).1, fun w => (hput w).2⟩

theorem log_step (hstep : net.step g event = some net') : net.log <+: net'.log := by
  rcases step_cases hstep with ⟨v, b, δ, -, -, rfl⟩ | ⟨v, b, -, rfl⟩
  · exact List.prefix_append _ _
  · exact List.prefix_refl _

/-- **The run lemma.** -/
theorem replicated_run (hg : IsGenesis g)
    (happlied : ((ChainState.new : ChainState P).applyBlock g).2.isApplied = true)
    {events : List (Event V P)} (hrun : run g events = some net)
    (hD : DistinctHashes (· ∈ g :: net.log)) : Replicated g net := by
  induction events using List.reverseRecOn generalizing net with
  | nil =>
      cases hrun
      exact replicated_start hg hD happlied
  | append_singleton events event ih =>
      rw [run, List.foldlM_append, Option.bind_eq_bind, Option.bind_eq_some_iff] at hrun
      obtain ⟨before, hbefore, hlast⟩ := hrun
      have hstep : before.step g event = some net := by simpa using hlast
      refine (ih hbefore (hD.mono ?_)).step hstep hD
      intro x hx
      exact ((List.prefix_cons_inj g).mpr (log_step hstep)).subset hx

/-- **Blocks are replicated.** Whatever arrives where, as long as each block is sealed on the newest one,
each node is on a beginning of the log and in the state of it, and the beginning goes up to the last block
that arrived when all blocks before it had. -/
theorem blocks_replicated (hg : IsGenesis g)
    (happlied : ((ChainState.new : ChainState P).applyBlock g).2.isApplied = true)
    {events : List (Event V P)} (hrun : run g events = some net)
    (hD : DistinctHashes (· ∈ g :: net.log)) (v : V) :
    ∃ n L, IsGreatest {n | CaughtUp net.log (net.arrived v) n} n ∧
      (net.nodes v).activeChain = (g :: net.log.take n).reverse ∧
      replay (g :: net.log.take n).reverse = some L ∧ Agrees (net.nodes v) L := by
  obtain ⟨hlog, hsettled, harrived⟩ := replicated_run hg happlied hrun hD
  obtain ⟨⟨chain, hreplica⟩, -, hhighest⟩ := hsettled v
  have hreplica' : Replica (· ∈ g :: net.log) g (net.nodes v) chain := by
    refine hreplica.mono ?_
    intro x hx
    rcases List.mem_cons.mp hx with rfl | hx
    · exact List.mem_cons_self
    · exact List.mem_cons_of_mem _ (harrived v x hx)
  obtain ⟨n, hn, rfl, hheight⟩ := hlog.chain_eq hreplica'.grounded
  obtain ⟨L, hL, hm⟩ := hreplica'.mirrors
  refine ⟨n, L, ?_, hreplica'.grounded.tracks.activeChain_eq hD, hL, hm.agrees⟩
  have hset : {n | CaughtUp net.log (net.arrived v) n} = completeHeights (g :: net.arrived v) g := by
    ext n
    exact (hlog.mem_completeHeights_iff (harrived v)).symm
  rw [hset, ← hheight]
  exact hhighest

end Spread

namespace Devnet

open ChainState Spread

/-- One node proposes three blocks. The second comes to the other node before the first, and stays behind
until the third has come. -/
def overtaken : List (Event Bool crypto) :=
  [.propose true env .new, .propose true env .new, .arrive false 1, .arrive false 0,
    .propose true env .new, .arrive false 2]

example : (run genesis (overtaken.take 4)).map (fun net =>
    ((net.nodes true).currentHeight, (net.nodes false).currentHeight)) = some (2, 1) := by
  decide +kernel

theorem overtaken_replicated : ∃ net n, run genesis overtaken = some net ∧
    IsGreatest {n | CaughtUp net.log (net.arrived false) n} n ∧
    (net.nodes false).activeChain = (genesis :: net.log).reverse := by
  have hrun : (run genesis overtaken).any (fun net =>
      decide ((zeroHash :: (genesis :: net.log).map Block.hash).Nodup ∧ net.log.length = 3 ∧
        (net.nodes false).activeChain.length = 4)) = true := by
    decide +kernel
  obtain ⟨net, hnet, hfacts⟩ := (Option.any_eq_true _ _).mp hrun
  obtain ⟨hnodup, hlength, hchain⟩ := of_decide_eq_true hfacts
  obtain ⟨n, L, hgreatest, heq, -⟩ := blocks_replicated ⟨rfl, rfl⟩ (by decide +kernel) hnet
    (distinctHashes_of_nodup hnodup) false
  refine ⟨net, n, hnet, hgreatest, ?_⟩
  rw [heq, List.length_reverse, List.length_cons, List.length_take, hlength] at hchain
  rw [heq, List.take_of_length_le]
  omega

end Devnet

end Haze
