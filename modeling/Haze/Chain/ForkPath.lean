import Haze.Chain.Kernels

/-!
# The path of a reorganization

`find_reorg_path` walks back from a new block until it meets the active chain, and lists the blocks to
roll back and the blocks to apply. On the states that deliveries after a genesis block reach, both
walks end, and the two lists are what they should be (`ForkPath`): the active chain above the common
ancestor, tip first, and the fork from the ancestor's child up to the new block.
-/

namespace Haze

variable {P : Crypto}

/-- `prev_hash` connectivity. -/
def Follows (parent child : Block P) : Prop :=
  child.header.prevHash = parent.hash

/-- The genesis block of a chain. -/
structure IsGenesis (g : Block P) : Prop where
  height : g.height = 0
  prevHash : g.header.prevHash = zeroHash

/-- The links between the blocks of the collection are acyclic. -/
def Acyclic (D : Block P → Prop) : Prop :=
  ∃ rank : Block P → ℕ, ∀ parent child, D parent → D child → Follows parent child →
    rank parent < rank child

/-- For the blocks of a list, growing heights show it. -/
theorem acyclic_of_heights {bs : List (Block P)}
    (h : ∀ parent ∈ bs, ∀ child ∈ bs, child.header.prevHash = parent.hash →
      parent.height < child.height) : Acyclic (· ∈ bs) := by
  refine ⟨fun b => b.height.toNat, ?_⟩
  intro parent child hparent hchild hfollows
  exact UInt64.lt_iff_toNat_lt.mp (h parent hparent child hchild hfollows)

namespace ChainState

variable {D : Block P → Prop} {s s' : ChainState P} {b g : Block P} {chain : List (Block P)}

/-! ## The inner walks

Two loops go down the active chain: one asks whether a hash is on it, the other collects what is above a
block. Along the chain, both end at its bottom. -/

section Walks

variable {blocks : KeyedMap Bytes32 (Block P)} {fuel n : ℕ} {hash target : Bytes32}

/-- The bottom of the chain has no parent. -/
def Bottoms (chain : List (Block P)) : Prop :=
  ∀ g ∈ chain.getLast?, g.header.prevHash = zeroHash

theorem Bottoms.tail {rest : List (Block P)} (h : Bottoms (b :: rest)) : Bottoms rest := by
  intro g hg
  apply h g
  cases rest with
  | nil => cases hg
  | cons b' rest => exact hg

/-- From a block of the chain the walk goes on to the rest of it. -/
theorem linked_rest (h : (blockLinks P).Linked blocks hash n (b :: chain)) (hb : Bottoms (b :: chain)) :
    ∃ m, (blockLinks P).Linked blocks b.header.prevHash m chain := by
  obtain ⟨-, -, hrest⟩ := h
  split at hrest
  next =>
    subst hrest
    exact ⟨0, hb b rfl, rfl⟩
  next => exact ⟨n - 1, hrest⟩

/-- The inner loop finds the hashes of the chain. -/
theorem isOnChain_eq_true (hkeyed : Links.Keyed (blockLinks P) D blocks) (hD : DistinctHashes D)
    (h : (blockLinks P).Linked blocks hash n chain) (hb : Bottoms chain) (hfuel : chain.length < fuel) :
    isOnChain blocks target fuel hash = true ↔ target ∈ chain.map Block.hash := by
  have hroot : blocks.lookup zeroHash = none := hkeyed.lookup_root hD
  induction chain generalizing fuel hash n with
  | nil =>
      obtain ⟨rfl, -⟩ := h
      cases fuel with
      | zero => simp at hfuel
      | succ fuel => simp [isOnChain, blockLinks]
  | cons b rest ih =>
      obtain ⟨m, hrest⟩ := linked_rest h hb
      have hlookup : blocks.lookup hash = some b := h.1
      have hhash : b.hash = hash := (hkeyed hash b hlookup).1
      cases fuel with
      | zero => simp at hfuel
      | succ fuel =>
          -- the zero hash is the end of the walk, and no block is stored under it
          have hzero : hash ≠ zeroHash := by
            rintro rfl
            rw [hroot] at hlookup
            cases hlookup
          have hlen : rest.length < fuel := by
            rw [List.length_cons] at hfuel
            omega
          rw [isOnChain, if_neg hzero, List.map_cons, List.mem_cons, hhash]
          -- either the hash is found here, or below
          by_cases htarget : hash = target
          · simp [htarget]
          · rw [if_neg htarget, hlookup]
            simp only [Ne.symm htarget, false_or]
            exact ih hrest hb.tail hlen

/-- What stands above the target on the chain. -/
def above (chain : List (Block P)) (target : Bytes32) : List (Block P) :=
  chain.takeWhile fun b => b.hash ≠ target

theorem rollbackHashes_eq (hkeyed : Links.Keyed (blockLinks P) D blocks) (hD : DistinctHashes D)
    (h : (blockLinks P).Linked blocks hash n chain) (hb : Bottoms chain) (hfuel : chain.length < fuel)
    (hmem : target ∈ chain.map Block.hash) :
    rollbackHashes blocks target fuel hash = (above chain target).map Block.hash := by
  have hroot : blocks.lookup zeroHash = none := hkeyed.lookup_root hD
  induction chain generalizing fuel hash n with
  | nil => cases hmem
  | cons b rest ih =>
      obtain ⟨m, hrest⟩ := linked_rest h hb
      have hlookup : blocks.lookup hash = some b := h.1
      have hhash : b.hash = hash := (hkeyed hash b hlookup).1
      cases fuel with
      | zero => simp at hfuel
      | succ fuel =>
          have hzero : hash ≠ zeroHash := by
            rintro rfl
            rw [hroot] at hlookup
            cases hlookup
          have hlen : rest.length < fuel := by
            rw [List.length_cons] at hfuel
            omega
          rw [rollbackHashes, above]
          -- the walk stops at the block it looks for, and this one is above it
          by_cases htarget : hash = target
          · simp [htarget, hhash]
          · have hmem' : target ∈ rest.map Block.hash := by
              rw [List.map_cons, List.mem_cons, hhash] at hmem
              exact hmem.resolve_left (Ne.symm htarget)
            rw [if_neg (by simp [htarget, hzero]), hlookup,
              List.takeWhile_cons_of_pos (by simpa [hhash] using htarget), List.map_cons, hhash]
            congr 1
            exact ih hrest hb.tail hlen hmem'

/-- The chain, split at one of its blocks. -/
theorem split_above (hmem : target ∈ chain.map Block.hash) :
    ∃ ancestor rest, chain = above chain target ++ ancestor :: rest ∧ ancestor.hash = target := by
  induction chain with
  | nil => cases hmem
  | cons b chain ih =>
      by_cases hb : b.hash = target
      · exact ⟨b, chain, by simp [above, hb], hb⟩
      · rw [List.map_cons, List.mem_cons] at hmem
        obtain ⟨ancestor, rest, hsplit, hhash⟩ := ih (hmem.resolve_left (Ne.symm hb))
        refine ⟨ancestor, rest, ?_, hhash⟩
        rw [above, List.takeWhile_cons_of_pos (by simpa using hb), List.cons_append]
        congr 1

end Walks

/-! ## The outer walk

The outer loop goes from the new block down to the first block on the active chain. It asks the inner loop
about every hash it comes to. -/

/-- The node's chain, down to its genesis block. -/
structure Grounded (D : Block P → Prop) (g : Block P) (s : ChainState P) (chain : List (Block P)) :
    Prop where
  genesis : IsGenesis g
  tracks : Tracks D s chain
  bottom : chain.getLast? = some g

theorem Grounded.mono {D' : Block P → Prop} (h : Grounded D g s chain) (hsub : ∀ b, D b → D' b) :
    Grounded D' g s chain :=
  ⟨h.genesis, ⟨h.tracks.keyed.mono hsub, h.tracks.linked⟩, h.bottom⟩

theorem Grounded.bottoms (h : Grounded D g s chain) : Bottoms chain := by
  intro g' hg'
  rw [h.bottom] at hg'
  obtain rfl := Option.some.inj hg'
  exact h.genesis.prevHash

/-- A stored block with the hash of a block of the chain is that block. -/
theorem Tracks.hash_mem_iff (hD : DistinctHashes D) (h : Tracks D s chain) (hb : D b) :
    b.hash ∈ chain.map Block.hash ↔ b ∈ chain := by
  constructor
  · intro hmem
    obtain ⟨b', hb', hhash⟩ := List.mem_map.mp hmem
    obtain rfl : b' = b := hD.inj b' b (h.linked.of_keyed h.keyed b' hb') hb hhash
    exact hb'
  · exact fun hmem => List.mem_map_of_mem hmem

/-- Where the active chain and the fork that ends in `b` part: `hashes` is the chain above the
ancestor, tip first, and `fork` goes from the ancestor's child up to `b`. -/
structure ForkPath (chain : List (Block P)) (b : Block P) (hashes : List Bytes32)
    (fork : List (Block P)) (ancestor : Block P) (rest : List (Block P)) : Prop where
  split : ∃ top, chain = top ++ ancestor :: rest ∧ hashes = top.map Block.hash
  linked : (ancestor :: fork).IsChain Follows
  last : fork.getLast? = some b
  apart : ∀ f ∈ fork.dropLast, f ∉ chain

section OuterWalk

variable {walkFuel fuel : ℕ} {hash : Bytes32} {acc fork : List (Block P)} {hashes : List Bytes32}

theorem Grounded.isOnChain_iff (hD : DistinctHashes D) (h : Grounded D g s chain)
    (hfuel : s.blocks.keys.card < walkFuel) :
    isOnChain s.blocks hash walkFuel s.lastBlockHash = true ↔ hash ∈ chain.map Block.hash :=
  isOnChain_eq_true h.tracks.keyed hD h.tracks.linked h.bottoms
    ((h.tracks.linked.length_le h.tracks.keyed).trans_lt hfuel)

theorem Grounded.rollbackHashes_eq (hD : DistinctHashes D) (h : Grounded D g s chain)
    (hfuel : s.blocks.keys.card < walkFuel) (hmem : hash ∈ chain.map Block.hash) :
    rollbackHashes s.blocks hash walkFuel s.lastBlockHash = (above chain hash).map Block.hash :=
  ChainState.rollbackHashes_eq h.tracks.keyed hD h.tracks.linked h.bottoms
    ((h.tracks.linked.length_le h.tracks.keyed).trans_lt hfuel) hmem

/-- What the outer loop returns is a fork path. -/
theorem Grounded.forkPath_of_reorgWalk (hD : DistinctHashes D) (h : Grounded D g s chain)
    (hfuel : s.blocks.keys.card < walkFuel) (hlinked : acc.IsChain Follows)
    (hhead : ∀ f ∈ acc.head?, f.header.prevHash = hash) (hlast : acc.getLast? = some b)
    (hapart : ∀ f ∈ acc.dropLast, f ∉ chain)
    (hwalk : s.reorgWalk walkFuel fuel hash acc = some (hashes, fork)) :
    ∃ ancestor rest, ForkPath chain b hashes fork ancestor rest := by
  induction fuel generalizing hash acc with
  | zero => cases hwalk
  | succ fuel ih =>
      unfold reorgWalk at hwalk
      split at hwalk
      · cases hwalk
      split at hwalk
      -- here the fork meets the chain, and everything above that has to be rolled back
      next hon =>
        cases hwalk
        have hmem := (h.isOnChain_iff hD hfuel).mp hon
        obtain ⟨ancestor, rest, hsplit, rfl⟩ := split_above hmem
        refine ⟨ancestor, rest, ⟨_, hsplit, h.rollbackHashes_eq hD hfuel hmem⟩, ?_, hlast, hapart⟩
        exact hlinked.cons hhead
      -- not yet: the parent joins the fork
      next hoff =>
        split at hwalk
        next parent hparent =>
          obtain ⟨hhash, hDparent⟩ := h.tracks.keyed hash parent hparent
          have hoff' : parent ∉ chain := by
            intro hmem
            apply hoff
            rw [h.isOnChain_iff hD hfuel, ← hhash]
            exact List.mem_map_of_mem hmem
          refine ih (hlinked.cons ?_) ?_ ?_ ?_ hwalk
          · intro f hf
            exact (hhead f hf).trans hhash.symm
          · simp
          · rw [List.getLast?_cons, hlast, Option.getD_some]
          · cases acc with
            | nil => cases hlast
            | cons f acc =>
                rw [List.dropLast_cons_cons, List.forall_mem_cons]
                exact ⟨hoff', hapart⟩
        next => cases hwalk

/-- The outer loop finds a fork whose blocks are in the database. -/
theorem Grounded.reorgWalk_eq_some (hD : DistinctHashes D) (h : Grounded D g s chain)
    {ancestor : Block P} (hfuel : s.blocks.keys.card < walkFuel) (hanc : ancestor ∈ chain)
    (hstored : ∀ f ∈ fork, s.blocks.lookup f.hash = some f) (hapart : ∀ f ∈ fork, f ∉ chain)
    (hlinked : (ancestor :: fork).IsChain Follows)
    (hhash : ∀ f ∈ (ancestor :: fork).getLast?, f.hash = hash) (hlen : fork.length < fuel) :
    s.reorgWalk walkFuel fuel hash acc =
      some ((above chain ancestor.hash).map Block.hash, fork ++ acc) := by
  -- the induction takes the fork from its upper end, where the loop starts
  induction fork using List.reverseRecOn generalizing fuel hash acc with
  | nil =>
      obtain rfl : ancestor.hash = hash := hhash ancestor rfl
      cases fuel with
      | zero => simp at hlen
      | succ fuel =>
          have hmem := List.mem_map_of_mem (f := Block.hash) hanc
          have hzero : ancestor.hash ≠ zeroHash :=
            hD.proper ancestor (h.tracks.linked.of_keyed h.tracks.keyed ancestor hanc)
          rw [reorgWalk, if_neg hzero, if_pos ((h.isOnChain_iff hD hfuel).mpr hmem),
            h.rollbackHashes_eq hD hfuel hmem, List.nil_append]
  | append_singleton fork f ih =>
      obtain rfl : f.hash = hash := hhash f (by rw [← List.cons_append, List.getLast?_concat]; rfl)
      cases fuel with
      | zero => simp at hlen
      | succ fuel =>
          have hlookup := hstored f (by simp)
          have hDf : D f := (h.tracks.keyed _ f hlookup).2
          have hzero : f.hash ≠ zeroHash := hD.proper f hDf
          -- a block of the fork is not on the chain, so the loop goes on
          have hoff : ¬ isOnChain s.blocks f.hash walkFuel s.lastBlockHash = true := by
            rw [h.isOnChain_iff hD hfuel, h.tracks.hash_mem_iff hD hDf]
            exact hapart f (by simp)
          rw [reorgWalk, if_neg hzero, if_neg hoff, hlookup, List.append_assoc, List.singleton_append]
          rw [← List.cons_append, List.isChain_append] at hlinked
          obtain ⟨hfork, -, hjoin⟩ := hlinked
          refine ih ?_ ?_ hfork ?_ ?_
          · exact fun x hx => hstored x (List.mem_append_left _ hx)
          · exact fun x hx => hapart x (List.mem_append_left _ hx)
          · intro x hx
            exact (hjoin x hx f rfl).symm
          · rw [List.length_append, List.length_singleton] at hlen
            omega

/-- The stored hashes of rank at most `r`. -/
noncomputable def ranked (rank : Block P → ℕ) (blocks : KeyedMap Bytes32 (Block P)) (r : ℕ) :
    Finset Bytes32 :=
  open Classical in
  blocks.keys.filter fun hash => ∃ b, blocks.lookup hash = some b ∧ rank b ≤ r

theorem mem_ranked {rank : Block P → ℕ} {blocks : KeyedMap Bytes32 (Block P)} {r : ℕ} :
    hash ∈ ranked rank blocks r ↔ ∃ b, blocks.lookup hash = some b ∧ rank b ≤ r := by
  classical
  rw [ranked, Finset.mem_filter]
  apply and_iff_right_of_imp
  rintro ⟨b, hb, -⟩
  exact Finmap.mem_keys.mpr (Finmap.mem_of_lookup_eq_some hb)

/-- Going to the parent leaves fewer hashes below. -/
theorem card_ranked_lt {rank : Block P → ℕ} {parent child : Block P}
    (hchild : s.blocks.lookup hash = some child) (hrank : rank parent < rank child) :
    (ranked rank s.blocks (rank parent)).card < (ranked rank s.blocks (rank child)).card := by
  apply Finset.card_lt_card
  rw [Finset.ssubset_iff_of_subset]
  · refine ⟨hash, mem_ranked.mpr ⟨child, hchild, le_rfl⟩, ?_⟩
    intro hmem
    obtain ⟨b, hb, hle⟩ := mem_ranked.mp hmem
    obtain rfl : child = b := Option.some.inj (hchild.symm.trans hb)
    omega
  · intro x hx
    obtain ⟨b, hb, hle⟩ := mem_ranked.mp hx
    exact mem_ranked.mpr ⟨b, hb, hle.trans hrank.le⟩

/-- Both walks end: with enough fuel, more of it changes nothing. -/
theorem Grounded.reorgWalk_fuel {walkFuel' fuel' : ℕ} {rank : Block P → ℕ} (hD : DistinctHashes D)
    (hrank : ∀ parent child, D parent → D child → Follows parent child → rank parent < rank child)
    (h : Grounded D g s chain) (hwalk : s.blocks.keys.card < walkFuel)
    (hwalk' : s.blocks.keys.card < walkFuel') (hpos : 0 < fuel) (hpos' : 0 < fuel')
    (hfuel : ∀ b, s.blocks.lookup hash = some b → (ranked rank s.blocks (rank b)).card < fuel)
    (hfuel' : ∀ b, s.blocks.lookup hash = some b → (ranked rank s.blocks (rank b)).card < fuel') :
    s.reorgWalk walkFuel fuel hash acc = s.reorgWalk walkFuel' fuel' hash acc := by
  induction fuel generalizing fuel' hash acc with
  | zero => omega
  | succ fuel ih =>
      obtain ⟨fuel', rfl⟩ : ∃ m, fuel' = m + 1 := ⟨fuel' - 1, by omega⟩
      rw [reorgWalk, reorgWalk]
      by_cases hzero : hash = zeroHash
      · rw [if_pos hzero, if_pos hzero]
      rw [if_neg hzero, if_neg hzero]
      -- on the chain, both end with the same answer
      by_cases hmem : hash ∈ chain.map Block.hash
      · rw [if_pos ((h.isOnChain_iff hD hwalk).mpr hmem), if_pos ((h.isOnChain_iff hD hwalk').mpr hmem),
          h.rollbackHashes_eq hD hwalk hmem, h.rollbackHashes_eq hD hwalk' hmem]
      rw [if_neg (mt (h.isOnChain_iff hD hwalk).mp hmem),
        if_neg (mt (h.isOnChain_iff hD hwalk').mp hmem)]
      cases hlookup : s.blocks.lookup hash with
      | none => rfl
      -- otherwise both go to the parent, which has a smaller rank, so that fewer blocks are left
      | some child =>
          have hself : 0 < (ranked rank s.blocks (rank child)).card :=
            Finset.card_pos.mpr ⟨hash, mem_ranked.mpr ⟨child, hlookup, le_rfl⟩⟩
          have hbound := hfuel child hlookup
          have hbound' := hfuel' child hlookup
          have hparent : ∀ parent, s.blocks.lookup child.header.prevHash = some parent →
              (ranked rank s.blocks (rank parent)).card < (ranked rank s.blocks (rank child)).card := by
            intro parent hparent
            obtain ⟨hhash, hDparent⟩ := h.tracks.keyed _ parent hparent
            have hDchild := (h.tracks.keyed _ child hlookup).2
            exact card_ranked_lt hlookup (hrank parent child hDparent hDchild hhash.symm)
          refine ih (by omega) (by omega) ?_ ?_
          · intro parent hp
            have := hparent parent hp
            omega
          · intro parent hp
            have := hparent parent hp
            omega

end OuterWalk

/-- `find_reorg_path` returns a fork path. -/
theorem Grounded.forkPath {hashes : List Bytes32} {fork : List (Block P)} (hD : DistinctHashes D)
    (h : Grounded D g s chain) (hpath : s.findReorgPath b = some (hashes, fork)) :
    ∃ ancestor rest, ForkPath chain b hashes fork ancestor rest :=
  h.forkPath_of_reorgWalk hD (Nat.lt_succ_self _) (List.IsChain.singleton b) (by simp) rfl (by simp)
    hpath

/-! ## Deliveries

What a delivery does, said about the active chain as a list. -/

theorem Grounded.storeBlock (hD : DistinctHashes D) (h : Grounded D g s chain) (hb : D b) :
    Grounded D g (s.storeBlock b) chain :=
  ⟨h.genesis, h.tracks.storeBlock hD hb, h.bottom⟩

/-- A rollback does not get to the genesis block. -/
theorem getLast?_drop_of_pos {n : ℕ} (hg : g.height = 0) (hbottom : chain.getLast? = some g)
    (hpos : ∀ b ∈ chain.take n, b.height ≠ 0) : (chain.drop n).getLast? = some g := by
  rw [List.getLast?_drop, hbottom, if_neg]
  intro hlen
  rw [List.take_of_length_le hlen] at hpos
  exact hpos g (List.mem_of_getLast? hbottom) hg

/-- The first delivery of a run: a genesis block on a fresh node. -/
theorem applyBlock_genesis (hg : g.height = 0)
    (happlied : ((ChainState.new : ChainState P).applyBlock g).2.isApplied = true) :
    ∃ c, (ChainState.new.storeBlock g).checkBlock g = some c ∧
      (ChainState.new.applyBlock g).1 = ((ChainState.new.storeBlock g).commitBlock g c).1 := by
  have houtcome := outcome_applyBlock (ChainState.new : ChainState P) g
  generalize (ChainState.new : ChainState P).applyBlock g = r at houtcome happlied ⊢
  cases houtcome with
  | invalid _ => cases happlied
  | refused _ => cases happlied
  | linear _ hlinear =>
      obtain ⟨c, hcheck, hcommit⟩ := applyLinearBlock_eq_some_iff.mp hlinear
      exact ⟨c, hcheck, (congrArg Prod.fst hcommit).symm⟩
  | reorg hheight _ _ _ _ =>
      rw [hg] at hheight
      exact absurd hheight (UInt64.lt_irrefl 0)

theorem tracks_genesis (hD : DistinctHashes D) (hg : g.height = 0) (hDg : D g)
    (happlied : ((ChainState.new : ChainState P).applyBlock g).2.isApplied = true) :
    Tracks D ((ChainState.new : ChainState P).applyBlock g).1 [g] := by
  obtain ⟨c, hcheck, hstate⟩ := applyBlock_genesis hg happlied
  rw [hstate]
  exact (Tracks.new.storeBlock hD hDg).commitBlock hD hDg (accepted_of_checkBlock hcheck)

theorem grounded_deliver {bs : List (Block P)} (hD : DistinctHashes (· ∈ g :: bs)) (hg : IsGenesis g)
    (happlied : ((ChainState.new : ChainState P).applyBlock g).2.isApplied = true) :
    ∃ chain, Grounded (· ∈ g :: bs) g (deliver (g :: bs)) chain := by
  obtain ⟨chain, htracks, hbottom⟩ : ∃ chain, Tracks (· ∈ g :: bs) (deliver (g :: bs)) chain ∧
      chain.getLast? = some g := by
    apply deliver_induct_from (C := fun _ _ => True) (Q := fun _ _ => True)
      (motive := fun _ chain => chain.getLast? = some g) (k := 1) (by simp) hD (fun _ _ _ _ => trivial)
    · exact ⟨[g], tracks_genesis hD hg.height List.mem_cons_self happlied, rfl⟩
    · exact fun _ => deliveryApplies_true
    · exact fun _ _ h => h
    · intro s chain b c _ h _ _ _
      rw [List.getLast?_cons, h, Option.getD_some]
    · intro s chain b _ _ r _ hrolls h
      exact getLast?_drop_of_pos hg.height h hrolls.pos
  exact ⟨chain, hg, htracks, hbottom⟩

/-- On top of the tip, the path is the block alone. -/
theorem Grounded.path_of_linear (hD : DistinctHashes D) (h : Grounded D g s chain)
    (hlin : s.isLinear b = true) : ∃ tip rest, chain = tip :: rest ∧ Follows tip b ∧
      b.height.toNat = s.currentHeight.toNat + 1 ∧ s.findReorgPath b = some ([], [b]) := by
  have hne : chain ≠ [] := by
    intro hnil
    have hbottom := h.bottom
    rw [hnil] at hbottom
    cases hbottom
  obtain ⟨tip, rest, rfl⟩ := List.exists_cons_of_ne_nil hne
  have htip : tip.hash = s.lastBlockHash := (h.tracks.keyed _ tip h.tracks.linked.1).1
  simp only [isLinear, Bool.or_eq_true, Bool.and_eq_true, beq_iff_eq] at hlin
  rcases hlin with ⟨hheight, hprev⟩ | ⟨-, hzero⟩
  · have hfollows : Follows tip b := hprev.trans htip.symm
    refine ⟨tip, rest, rfl, hfollows, hheight, ?_⟩
    have hwalk : s.findReorgPath b = some ((above (tip :: rest) tip.hash).map Block.hash, [] ++ [b]) :=
      h.reorgWalk_eq_some hD (Nat.lt_succ_self _) List.mem_cons_self (by simp) (by simp)
        (List.IsChain.singleton tip) (by simpa using hfollows.symm)
        (Nat.succ_pos s.blocks.keys.card)
    simpa [above] using hwalk
  · -- a fresh state has no chain
    rw [hzero] at htip
    exact absurd htip (hD.proper tip (h.tracks.linked.of_keyed h.tracks.keyed tip List.mem_cons_self))

/-- What an applied delivery does to the chain. -/
theorem Grounded.applyBlock (hD : DistinctHashes D) (h : Grounded D g s chain) (hb : D b)
    (happlied : (s.applyBlock b).2.isApplied = true) :
    ∃ hashes fork ancestor rest, (s.storeBlock b).findReorgPath b = some (hashes, fork) ∧
      ForkPath chain b hashes fork ancestor rest ∧ s.currentHeight < b.height ∧
      Grounded D g (s.applyBlock b).1 (fork.reverse ++ ancestor :: rest) := by
  have hstored := h.storeBlock hD hb
  have houtcome := outcome_applyBlock s b
  generalize s.applyBlock b = r at houtcome happlied ⊢
  cases houtcome with
  | invalid _ => cases happlied
  | refused _ => cases happlied
  -- the new block on top of the chain is a fork of length one
  | linear hlin hlinear =>
      obtain ⟨c, hacc, rfl⟩ := applyLinearBlock_eq_some hlinear
      obtain ⟨tip, rest, rfl, hfollows, hheight, hpath⟩ := hstored.path_of_linear hD hlin
      have hlt : s.currentHeight < b.height := by
        rw [UInt64.lt_iff_toNat_lt]
        exact hheight ▸ Nat.lt_succ_self _
      have hbottom : (b :: tip :: rest).getLast? = some g := h.bottom
      refine ⟨[], [b], tip, rest, hpath, ⟨⟨[], rfl, rfl⟩, ?_, rfl, by simp⟩, hlt, h.genesis,
        hstored.tracks.commitBlock hD hb hacc, hbottom⟩
      simpa using hfollows
  -- a fork is checked, the chain rolled back to its ancestor, and the fork put on top
  | reorg hheight _ hpath hroll happly =>
      obtain ⟨ancestor, rest, hfork⟩ := hstored.forkPath hD hpath
      obtain ⟨rfl, hrolls⟩ := hstored.tracks.rollbackAll hroll
      obtain ⟨top, rfl, rfl⟩ := hfork.split
      have hmem := forall_mem_reorgWalk hstored.tracks.keyed (by simpa using hb) hpath
      have htracks := hrolls.tracks.applyAll hD hmem happly
      rw [List.length_map, List.drop_left] at htracks
      refine ⟨_, _, ancestor, rest, hpath, hfork, hheight, h.genesis, htracks, ?_⟩
      have hbottom := h.bottom
      rw [List.getLast?_append_cons] at hbottom ⊢
      exact hbottom

/-- The tip is the block at the top of the chain. -/
theorem Tracks.tip_eq {rest : List (Block P)} (h : Tracks D s (b :: rest)) :
    s.lastBlockHash = b.hash ∧ s.currentHeight = b.height :=
  ⟨(h.keyed _ b h.linked.1).1.symm, (UInt64.toNat_inj.mp h.linked.2.1).symm⟩

theorem ForkPath.reverse_eq {hashes : List Bytes32} {fork rest : List (Block P)} {ancestor : Block P}
    (h : ForkPath chain b hashes fork ancestor rest) : fork.reverse = b :: fork.dropLast.reverse := by
  conv_lhs => rw [← List.dropLast_append_getLast? b h.last]
  rw [List.reverse_append, List.reverse_singleton, List.singleton_append]

/-- **Reorganizations are correct.** After any deliveries on top of a genesis block, both walks of
`find_reorg_path` end, it returns the active chain above the common ancestor and the fork above it; and
a delivery that is applied makes the fork the active chain, ending in the new block, higher than
before and on the same genesis block. -/
theorem reorganization_correct {bs : List (Block P)} (hD : DistinctHashes (· ∈ b :: g :: bs))
    (hacyclic : Acyclic (· ∈ b :: g :: bs)) (hg : IsGenesis g)
    (happlied : ((ChainState.new : ChainState P).applyBlock g).2.isApplied = true)
    (hs : s = deliver (g :: bs)) :
    (∀ t, t = s ∨ t = s.storeBlock b →
      (∀ fuel, t.blocks.keys.card < fuel →
        t.reorgWalk fuel fuel b.header.prevHash [b] = t.findReorgPath b) ∧
      ∀ hashes fork, t.findReorgPath b = some (hashes, fork) →
        ∃ ancestor rest, ForkPath s.activeChain b hashes fork ancestor rest) ∧
    ((s.applyBlock b).2.isApplied = true →
      ∃ hashes fork ancestor rest, (s.storeBlock b).findReorgPath b = some (hashes, fork) ∧
        ForkPath s.activeChain b hashes fork ancestor rest ∧
        (s.applyBlock b).1.lastBlockHash = b.hash ∧
        (s.applyBlock b).1.currentHeight = b.height ∧ s.currentHeight < b.height ∧
        (s.applyBlock b).1.activeChain = fork.reverse ++ ancestor :: rest ∧
        s.activeChain.getLast? = some g ∧ (s.applyBlock b).1.activeChain.getLast? = some g) := by
  subst hs
  have hsub : ∀ x ∈ g :: bs, x ∈ b :: g :: bs := fun x hx => List.mem_cons_of_mem b hx
  obtain ⟨chain, hgrounded⟩ := grounded_deliver (hD.mono hsub) hg happlied
  have hwide : Grounded (· ∈ b :: g :: bs) g (deliver (g :: bs)) chain := hgrounded.mono hsub
  have hchain : (deliver (g :: bs)).activeChain = chain := hwide.tracks.activeChain_eq hD
  rw [hchain]
  refine ⟨?_, ?_⟩
  -- for the state before the call, and for the one in which the block is stored
  · intro t ht
    have htg : Grounded (· ∈ b :: g :: bs) g t chain := by
      rcases ht with rfl | rfl
      · exact hwide
      · exact hwide.storeBlock hD List.mem_cons_self
    refine ⟨?_, fun hashes fork hpath => htg.forkPath hD hpath⟩
    intro fuel hfuel
    obtain ⟨rank, hrank⟩ := hacyclic
    -- the fuel of the model is enough: the blocks of lower rank are among those stored
    have hcard : ∀ r, (ranked rank t.blocks r).card ≤ t.blocks.keys.card := by
      intro r
      apply Finset.card_le_card
      intro hash hhash
      obtain ⟨x, hx, -⟩ := mem_ranked.mp hhash
      exact Finmap.mem_keys.mpr (Finmap.mem_of_lookup_eq_some hx)
    exact htg.reorgWalk_fuel hD hrank hfuel (Nat.lt_succ_self _) (Nat.zero_lt_of_lt hfuel)
      (Nat.succ_pos _) (fun x _ => (hcard _).trans_lt hfuel)
      (fun x _ => (hcard _).trans_lt (Nat.lt_succ_self _))
  · intro hb
    obtain ⟨hashes, fork, ancestor, rest, hpath, hfork, hlt, hnew⟩ :=
      hwide.applyBlock hD List.mem_cons_self hb
    have htip := hnew.tracks
    rw [hfork.reverse_eq] at htip
    obtain ⟨hlast, hheight⟩ := htip.tip_eq
    have hactive := hnew.tracks.activeChain_eq hD
    refine ⟨hashes, fork, ancestor, rest, hpath, hfork, hlast, hheight, hlt, hactive,
      hwide.bottom, ?_⟩
    rw [hactive]
    exact hnew.bottom

end ChainState

namespace Devnet

open ChainState

@[irreducible] def firstBlock : Block crypto :=
  mine (deliver [genesis]) (coinbase 1 11)

/-- A node on the first block, which has heard of its rival. -/
@[irreducible] def onFirst : ChainState crypto :=
  deliver [genesis, firstBlock, rivalBlock]

/-- The second block of the fork replaces the first block. -/
theorem secondBlock_reorganizes :
    onFirst.lastBlockHash = firstBlock.hash ∧
      ∃ hashes fork ancestor rest,
        ForkPath onFirst.activeChain secondBlock hashes fork ancestor rest ∧
        (onFirst.applyBlock secondBlock).1.lastBlockHash = secondBlock.hash ∧
        (onFirst.applyBlock secondBlock).1.activeChain = fork.reverse ++ ancestor :: rest := by
  have hrun : (zeroHash :: [secondBlock, genesis, firstBlock, rivalBlock].map Block.hash).Nodup ∧
      (∀ parent ∈ [secondBlock, genesis, firstBlock, rivalBlock],
        ∀ child ∈ [secondBlock, genesis, firstBlock, rivalBlock],
          child.header.prevHash = parent.hash → parent.height < child.height) ∧
      ((ChainState.new : ChainState crypto).applyBlock genesis).2.isApplied = true ∧
      (onFirst.applyBlock secondBlock).2.isApplied = true ∧
      onFirst.lastBlockHash = firstBlock.hash := by
    decide +kernel
  obtain ⟨hnodup, hheights, hgenesis, happlied, htip⟩ := hrun
  have hs : onFirst = deliver [genesis, firstBlock, rivalBlock] := by unfold onFirst; rfl
  obtain ⟨-, hnew⟩ := reorganization_correct (distinctHashes_of_nodup hnodup)
    (acyclic_of_heights hheights) ⟨rfl, rfl⟩ hgenesis hs
  obtain ⟨hashes, fork, ancestor, rest, -, hfork, hlast, -, -, hchain, -⟩ := hnew happlied
  exact ⟨htip, hashes, fork, ancestor, rest, hfork, hlast, hchain⟩

end Devnet

end Haze
