import Haze.Chain.ForkPath
import Haze.Chain.Quota

/-!
# The replay of a chain

Whether a block is accepted depends on what the blocks below it have left, and on nothing else as long
as the state is what applying these blocks one after another on a fresh node gives (`Mirrors`). Storing
and applying keep that; a rollback keeps it when it is exact. On such a state a block whose ancestors
are all in the database is applied as soon as it is higher than the tip (`Replica.applies`), on
whatever fork it is.
-/

namespace Haze

namespace ChainState

variable {P : Crypto} {D : Block P → Prop} {s t L : ChainState P} {b g : Block P} {c : Candidate P}
  {chain : List (Block P)}

/-- The state after applying the blocks of a chain, the last one first, on a fresh node. -/
def replay : List (Block P) → Option (ChainState P)
  | [] => some ChainState.new
  | b :: chain => do
      let L ← replay chain
      let (L', _) ← L.applyLinearBlock b
      return L'

theorem replay_cons_eq_some {L' : ChainState P} : replay (b :: chain) = some L' ↔
    ∃ L c, replay chain = some L ∧ L.checkBlock b = some c ∧ (L.commitBlock b c).1 = L' := by
  simp only [replay, Option.bind_eq_bind, Option.bind_eq_some_iff, Option.pure_def, Option.some.injEq]
  constructor
  · rintro ⟨L, hL, ⟨L₁, δ⟩, happly, rfl⟩
    obtain ⟨c, hcheck, hcommit⟩ := applyLinearBlock_eq_some_iff.mp happly
    exact ⟨L, c, hL, hcheck, congrArg Prod.fst hcommit⟩
  · rintro ⟨L, c, hL, hcheck, rfl⟩
    exact ⟨L, hL, L.commitBlock b c, applyLinearBlock_eq_some_iff.mpr ⟨c, hcheck, rfl⟩, rfl⟩

/-- The blocks below have been replayed before. -/
theorem replay_suffix {top : List (Block P)} (h : (replay (top ++ chain)).isSome = true) :
    (replay chain).isSome = true := by
  induction top with
  | nil => exact h
  | cons b top ih =>
      rw [List.cons_append] at h
      obtain ⟨L', hL'⟩ := Option.isSome_iff_exists.mp h
      obtain ⟨L, c, hL, -⟩ := replay_cons_eq_some.mp hL'
      exact ih (by rw [hL, Option.isSome_some])

theorem tracks_replay (hD : DistinctHashes D) (hchain : ∀ b ∈ chain, D b)
    (h : replay chain = some L) : Tracks D L chain := by
  induction chain generalizing L with
  | nil =>
      cases h
      exact Tracks.new
  | cons b chain ih =>
      obtain ⟨L₀, c, hL₀, hcheck, rfl⟩ := replay_cons_eq_some.mp h
      obtain ⟨hb, hchain⟩ := List.forall_mem_cons.mp hchain
      exact (ih hchain hL₀).commitBlock hD hb (accepted_of_checkBlock hcheck)

theorem reachable_replay (hg : g.height = 0) (hbottom : chain.getLast? = some g)
    (hchain : ∀ b ∈ chain, D b) (h : replay chain = some L) : Reachable D L := by
  induction chain generalizing L with
  | nil => cases hbottom
  | cons b chain ih =>
      obtain ⟨L₀, c, hL₀, hcheck, rfl⟩ := replay_cons_eq_some.mp h
      obtain ⟨hb, hchain⟩ := List.forall_mem_cons.mp hchain
      have happly : L₀.applyLinearBlock b = some (L₀.commitBlock b c) :=
        applyLinearBlock_eq_some_iff.mpr ⟨c, hcheck, rfl⟩
      cases chain with
      | nil =>
          cases hL₀
          obtain rfl : b = g := Option.some.inj hbottom
          exact .genesis hb hg happly
      | cons b' chain => exact .apply (ih hbottom hchain hL₀) hb happly

/-! ## What acceptance depends on

The checks read some of a state only: the tip, the coins, the kernel excesses, the validators, the
registries and the mint counts. What they do not read may differ. -/

/-- `t` and `s` agree on everything that the checks of a block read. -/
structure Agrees (t s : ChainState P) : Prop where
  utxos : t.utxos = s.utxos
  kernelExcesses : t.kernelExcesses = s.kernelExcesses
  currentHeight : t.currentHeight = s.currentHeight
  lastBlockHash : t.lastBlockHash = s.lastBlockHash
  activeValidators : t.activeValidators = s.activeValidators
  nameRegistry : t.nameRegistry = s.nameRegistry
  assetRegistry : t.assetRegistry = s.assetRegistry
  collectionRegistry : t.collectionRegistry = s.collectionRegistry
  collectionMintCounts : t.collectionMintCounts = s.collectionMintCounts

theorem Agrees.checkBlock (h : Agrees t s) (b : Block P) : t.checkBlock b = s.checkBlock b := by
  obtain ⟨h₁, h₂, h₃, h₄, h₅, h₆, h₇, h₈, h₉⟩ := h
  cases t
  cases s
  subst h₁ h₂ h₃ h₄ h₅ h₆ h₇ h₈ h₉
  rfl

theorem Agrees.commitBlock (h : Agrees t s) (b : Block P) (c : Candidate P) :
    Agrees (t.commitBlock b c).1 (s.commitBlock b c).1 := by
  obtain ⟨h₁, h₂, h₃, h₄, h₅, h₆, h₇, h₈, h₉⟩ := h
  cases t
  cases s
  subst h₁ h₂ h₃ h₄ h₅ h₆ h₇ h₈ h₉
  exact ⟨rfl, rfl, rfl, rfl, rfl, rfl, rfl, rfl, rfl⟩

/-- Blocks that can be replayed on a chain can be applied on a state that agrees with its replay. -/
theorem Agrees.applyAll_isSome {fork : List (Block P)} (h : Agrees t L) (hL : replay chain = some L)
    (hfork : (replay (fork.reverse ++ chain)).isSome = true) : (applyAll fork t).isSome = true := by
  induction fork generalizing t L chain with
  | nil => rfl
  | cons b fork ih =>
      rw [List.reverse_cons, List.append_assoc, List.singleton_append] at hfork
      obtain ⟨L', hL'⟩ := Option.isSome_iff_exists.mp (replay_suffix hfork)
      obtain ⟨L₀, c, hL₀, hcheck, rfl⟩ := replay_cons_eq_some.mp hL'
      obtain rfl : L₀ = L := Option.some.inj (hL₀.symm.trans hL)
      have happly : t.applyLinearBlock b = some (t.commitBlock b c) :=
        applyLinearBlock_eq_some_iff.mpr ⟨c, (h.checkBlock b).trans hcheck, rfl⟩
      obtain ⟨r, hr⟩ := Option.isSome_iff_exists.mp (ih (h.commitBlock b c) hL' hfork)
      simp [ChainState.applyAll, happly, hr]

/-! ## States that mirror the replay of their chain

The state of a node has more than a replay of its chain: old snapshots, other stored blocks. It mirrors the
replay if it agrees in what the checks read, and in what a rollback of the registries reads. -/

/-- The state is what replaying the chain gives, in everything that the checks of a block and the
rollback of the registries read. -/
structure Mirrors (s : ChainState P) (L : ChainState P) : Prop where
  agrees : Agrees s L
  restores : Restores s L

theorem Mirrors.refl (s : ChainState P) : Mirrors s s :=
  ⟨⟨rfl, rfl, rfl, rfl, rfl, rfl, rfl, rfl, rfl⟩, Restores.refl s⟩

theorem Mirrors.storeBlock (hD : DistinctHashes D) (htracks : Tracks D s chain) (hb : D b)
    (h : Mirrors s L) : Mirrors (s.storeBlock b) L := by
  obtain ⟨ha, hr⟩ := h
  refine ⟨⟨ha.utxos, ha.kernelExcesses, ha.currentHeight, ha.lastBlockHash, ha.activeValidators,
    ha.nameRegistry, ha.assetRegistry, ha.collectionRegistry, ha.collectionMintCounts⟩, ?_⟩
  refine ⟨hr.nameRegistry, hr.assetRegistry, hr.collectionRegistry, hr.collectionMintCounts,
    hr.currentHeight, hr.lastBlockHash, hr.transferSnapshots, hr.assetTransferSnapshots, ?_⟩
  intro hash b' hb'
  exact htracks.keyed.lookup_insert hD hb (hr.blocks hash b' hb')

theorem Mirrors.commitBlock (h : Mirrors s L) (b : Block P) (c : Candidate P) :
    Mirrors (s.commitBlock b c).1 (L.commitBlock b c).1 := by
  have ha := h.agrees.commitBlock b c
  obtain ⟨hagrees, hr⟩ := h
  refine ⟨ha, ha.nameRegistry, ha.assetRegistry, ha.collectionRegistry, ha.collectionMintCounts,
    ha.currentHeight, ha.lastBlockHash, ?_, ?_, ?_⟩
  · show saveSnapshot s.transferSnapshots _ _ = saveSnapshot L.transferSnapshots _ _
    rw [hr.transferSnapshots, hr.nameRegistry]
  · show saveSnapshot s.assetTransferSnapshots _ _ = saveSnapshot L.assetTransferSnapshots _ _
    rw [hr.assetTransferSnapshots, hr.assetRegistry]
  · intro hash b' hb'
    show (s.blocks.insert b.hash b).lookup hash = some b'
    have hb'' : (L.blocks.insert b.hash b).lookup hash = some b' := hb'
    by_cases hhash : hash = b.hash
    · subst hhash
      rw [Finmap.lookup_insert] at hb'' ⊢
      exact hb''
    · rw [Finmap.lookup_insert_of_ne _ hhash] at hb'' ⊢
      exact hr.blocks hash b' hb''

/-- Rolling back the registries goes down the replay. -/
theorem Restores.revertBlocks {n : ℕ} (hD : DistinctHashes D) (hg : g.height = 0)
    (hbottom : chain.getLast? = some g) (htracks : Tracks D s chain) (hL : replay chain = some L)
    (h : Restores s L) (hpos : ∀ b ∈ chain.take n, b.height ≠ 0) :
    ∃ L', replay (chain.drop n) = some L' ∧ Restores (s.revertBlocks (chain.take n)) L' := by
  induction n generalizing s L chain with
  | zero => exact ⟨L, hL, h⟩
  | succ n ih =>
      cases chain with
      | nil => cases hbottom
      | cons b rest =>
          obtain ⟨hne, hpos⟩ := List.forall_mem_cons.mp hpos
          obtain ⟨L₀, c, hL₀, hcheck, rfl⟩ := replay_cons_eq_some.mp hL
          have hall := htracks.linked.of_keyed htracks.keyed
          obtain ⟨hb, hrest⟩ := List.forall_mem_cons.mp hall
          -- the genesis block is further down
          have hbottom' : rest.getLast? = some g := by
            cases rest with
            | nil =>
                obtain rfl : b = g := Option.some.inj hbottom
                exact absurd hg hne
            | cons b' rest => exact hbottom
          have hsound := (reachable_replay hg hbottom' hrest hL₀).sound hD
          obtain ⟨s', δ, hroll, hs'⟩ :=
            h.rollbackBlock hD hsound hb (accepted_of_checkBlock hcheck)
          obtain ⟨tip, rest', heq, -, -, rfl, htracks'⟩ := htracks.rollbackBlock hroll
          obtain ⟨rfl, rfl⟩ := List.cons.inj heq
          exact ih hbottom' htracks' hL₀ hs' hpos

/-- The rollback has left the coins, the kernel excesses and the validators that replaying the rest of
the chain gives. -/
def Exact (t L : ChainState P) : Prop :=
  t.utxos = L.utxos ∧ t.kernelExcesses = L.kernelExcesses ∧ t.activeValidators = L.activeValidators

instance (t L : ChainState P) : Decidable (Exact t L) :=
  inferInstanceAs (Decidable (t.utxos = L.utxos ∧ t.kernelExcesses = L.kernelExcesses ∧
    t.activeValidators = L.activeValidators))

theorem Restores.mirrors (h : Restores t L) (hexact : Exact t L) : Mirrors t L :=
  ⟨⟨hexact.1, hexact.2.1, h.currentHeight, h.lastBlockHash, hexact.2.2, h.nameRegistry,
    h.assetRegistry, h.collectionRegistry, h.collectionMintCounts⟩, h⟩

/-- The reorganization that delivering `b` tries, successful or not: how many blocks it rolls back,
and the fork. -/
def attemptOf (s : ChainState P) (b : Block P) : Option (ℕ × List (Block P)) := do
  Checked.ensure (b.validate && !s.isLinear b && b.height > s.currentHeight)
  let (hashes, fork) ← (s.storeBlock b).findReorgPath b
  return (hashes.length, fork)

theorem attemptOf_of_reorgOf {r : ℕ × List (Block P)} (h : s.reorgOf b = some r) :
    s.attemptOf b = some r := by
  simp only [reorgOf, Option.bind_eq_bind, Option.bind_eq_some_iff] at h
  obtain ⟨u, hu, ⟨hashes, fork⟩, hpath, _, -, heq⟩ := h
  simp only [attemptOf, Option.bind_eq_bind, Option.bind_eq_some_iff]
  exact ⟨u, hu, (hashes, fork), hpath, heq⟩

/-- If the delivery tries to roll blocks back, the rollback is exact. -/
def TriesExactly (s : ChainState P) (b : Block P) : Prop :=
  ∀ r ∈ s.attemptOf b, ∀ L ∈ replay (s.activeChain.drop r.1),
    Exact ((s.storeBlock b).revertBlocks (s.activeChain.take r.1)) L

instance (s : ChainState P) (b : Block P) : Decidable (TriesExactly s b) :=
  inferInstanceAs (Decidable (∀ r ∈ s.attemptOf b, ∀ L ∈ replay (s.activeChain.drop r.1),
    Exact ((s.storeBlock b).revertBlocks (s.activeChain.take r.1)) L))

/-- The state mirrors the replay of the chain it rests on, down to the genesis block. -/
structure Replica (D : Block P → Prop) (g : Block P) (s : ChainState P) (chain : List (Block P)) :
    Prop where
  grounded : Grounded D g s chain
  mirrors : ∃ L, replay chain = some L ∧ Mirrors s L

theorem Replica.mono {D' : Block P → Prop} (h : Replica D g s chain) (hsub : ∀ b, D b → D' b) :
    Replica D' g s chain :=
  ⟨h.grounded.mono hsub, h.mirrors⟩

theorem Replica.storeBlock (hD : DistinctHashes D) (h : Replica D g s chain) (hb : D b) :
    Replica D g (s.storeBlock b) chain := by
  obtain ⟨L, hL, hm⟩ := h.mirrors
  exact ⟨h.grounded.storeBlock hD hb, L, hL, hm.storeBlock hD h.grounded.tracks hb⟩

theorem Replica.revertBlocks {n : ℕ} (hD : DistinctHashes D) (h : Replica D g s chain)
    (hpos : ∀ b ∈ chain.take n, b.height ≠ 0)
    (hexact : ∀ L ∈ replay (chain.drop n), Exact (s.revertBlocks (chain.take n)) L) :
    Replica D g (s.revertBlocks (chain.take n)) (chain.drop n) := by
  obtain ⟨L, hL, hm⟩ := h.mirrors
  have hg := h.grounded.genesis
  obtain ⟨L', hL', hr⟩ :=
    hm.restores.revertBlocks hD hg.height h.grounded.bottom h.grounded.tracks hL hpos
  refine ⟨⟨hg, h.grounded.tracks.revertBlocks hpos, ?_⟩, L', hL', hr.mirrors (hexact L' hL')⟩
  exact getLast?_drop_of_pos hg.height h.grounded.bottom hpos

theorem Replica.commitBlock (hD : DistinctHashes D) (h : Replica D g s chain) (hb : D b)
    (hcheck : s.checkBlock b = some c) : Replica D g (s.commitBlock b c).1 (b :: chain) := by
  obtain ⟨L, hL, hm⟩ := h.mirrors
  have hcheck' : L.checkBlock b = some c := (hm.agrees.checkBlock b).symm.trans hcheck
  refine ⟨⟨h.grounded.genesis, h.grounded.tracks.commitBlock hD hb (accepted_of_checkBlock hcheck), ?_⟩,
    (L.commitBlock b c).1, replay_cons_eq_some.mpr ⟨L, c, hL, hcheck', rfl⟩, hm.commitBlock b c⟩
  rw [List.getLast?_cons, h.grounded.bottom, Option.getD_some]

theorem replica_genesis (hD : DistinctHashes D) (hg : IsGenesis g) (hDg : D g)
    (happlied : ((ChainState.new : ChainState P).applyBlock g).2.isApplied = true) :
    Replica D g ((ChainState.new : ChainState P).applyBlock g).1 [g] := by
  refine ⟨⟨hg, tracks_genesis hD hg.height hDg happlied, rfl⟩, ?_⟩
  obtain ⟨c, hcheck, hstate⟩ := applyBlock_genesis hg.height happlied
  have hm := (Mirrors.refl (ChainState.new : ChainState P)).storeBlock hD Tracks.new hDg
  have hcheck' : ChainState.new.checkBlock g = some c := (hm.agrees.checkBlock g).symm.trans hcheck
  rw [hstate]
  exact ⟨_, replay_cons_eq_some.mpr ⟨_, c, rfl, hcheck', rfl⟩, hm.commitBlock g c⟩

theorem Replica.applyBlock (hD : DistinctHashes D) (h : Replica D g s chain) (hb : D b)
    (hexact : TriesExactly s b) : ∃ chain', Replica D g (s.applyBlock b).1 chain' := by
  have htracks := h.grounded.tracks
  obtain ⟨chain', -, h'⟩ := htracks.applyBlock_induct (Q := fun _ _ => True) hD hb h
    deliveryApplies_true (fun _ hb h => h.storeBlock hD hb)
    (fun _ h hb hcheck _ => h.commitBlock hD hb hcheck) (by
      intro r hr hrolls h
      have hrolled := hexact r (attemptOf_of_reorgOf hr)
      rw [htracks.activeChain_eq hD] at hrolled
      exact h.revertBlocks hD hrolls.pos hrolled)
  exact ⟨chain', h'⟩

/-! ## A higher block is applied

Let a block and its ancestors be replayable, and higher than the tip. Then it is applied: on top, or after a
rollback to where its ancestors meet the chain. -/

/-- The blocks above a block of the chain can be rolled back. -/
theorem Tracks.rollbackAll_isSome {hashes : List Bytes32} (h : Tracks D s chain)
    (hlen : hashes.length ≤ chain.length) (hpos : ∀ b ∈ chain.take hashes.length, b.height ≠ 0) :
    (ChainState.rollbackAll hashes s).isSome = true := by
  induction hashes generalizing s chain with
  | nil => rfl
  | cons hash hashes ih =>
      cases chain with
      | nil => simp at hlen
      | cons tip rest =>
          rw [List.length_cons, List.take_succ_cons, List.forall_mem_cons] at hpos
          obtain ⟨hne, hpos⟩ := hpos
          have hheight : s.currentHeight ≠ 0 := by
            rw [h.tip_eq.2]
            exact hne
          have hroll : s.rollbackBlock = some (s.revertBlock tip) := by
            have hlookup : s.blocks.lookup s.lastBlockHash = some tip := h.linked.1
            rw [ChainState.rollbackBlock, if_neg hheight, hlookup, Option.map_some]
          have hrest := ih (h.revertBlock hne).1 (Nat.le_of_succ_le_succ hlen) hpos
          obtain ⟨r, hr⟩ := Option.isSome_iff_exists.mp hrest
          simp [ChainState.rollbackAll, hroll, hr]

theorem exists_first {α : Type} {p : α → Prop} {l : List α} (h : ∃ x ∈ l, p x) :
    ∃ l₁ x l₂, l = l₁ ++ x :: l₂ ∧ p x ∧ ∀ y ∈ l₁, ¬ p y := by
  induction l with
  | nil =>
      obtain ⟨x, hx, -⟩ := h
      cases hx
  | cons a l ih =>
      by_cases ha : p a
      · exact ⟨[], a, l, rfl, ha, by simp⟩
      · have h' : ∃ x ∈ l, p x := by simpa [ha] using h
        obtain ⟨l₁, x, l₂, rfl, hx, hfirst⟩ := ih h'
        refine ⟨a :: l₁, x, l₂, rfl, hx, ?_⟩
        rw [List.forall_mem_cons]
        exact ⟨ha, hfirst⟩

/-- A chain of ancestors, newest first, all in the database. -/
structure Ancestry (s : ChainState P) (g b : Block P) (anc : List (Block P)) : Prop where
  stored : ∀ x ∈ anc, s.blocks.lookup x.hash = some x
  linked : (b :: anc).IsChain fun child parent => Follows parent child
  bottom : anc.getLast? = some g

section Ancestors

variable {anc : List (Block P)}

theorem Ancestry.storeBlock (hD : DistinctHashes D) (htracks : Tracks D s chain) (hb : D b)
    {b' : Block P} (h : Ancestry s g b' anc) : Ancestry (s.storeBlock b) g b' anc := by
  refine ⟨?_, h.linked, h.bottom⟩
  intro x hx
  exact htracks.keyed.lookup_insert hD hb (h.stored x hx)

/-- Ancestors that can be replayed are the path below the block, in the database of `s` too. -/
theorem Ancestry.linked_below (hD : DistinctHashes D) (htracks : Tracks D s chain)
    (h : Ancestry s g b anc) (hpos : b.height ≠ 0) (hL : replay anc = some L)
    (hacc : Accepted L b c) :
    (blockLinks P).Linked s.blocks b.header.prevHash L.currentHeight.toNat anc := by
  have hanc : ∀ x ∈ anc, D x := fun x hx => (htracks.keyed _ x (h.stored x hx)).2
  have hreplay := tracks_replay hD hanc hL
  rcases hacc.connected with ⟨-, hprev⟩ | ⟨h0, -⟩
  · rw [hprev]
    exact hreplay.linked.transfer hreplay.keyed h.stored
  · exact absurd h0 hpos

/-- Where the ancestors meet the chain. -/
theorem Ancestry.meets {k : Bytes32} {n : ℕ} (hD : DistinctHashes D) (hs : Grounded D g s chain)
    (h : Ancestry s g b anc) (hlinked : (blockLinks P).Linked s.blocks k n anc) :
    ∃ mid a rest, anc = mid ++ a :: rest ∧ (∀ x ∈ mid, x ∉ chain) ∧
      chain = above chain a.hash ++ a :: rest := by
  have hmeet : ∃ x ∈ anc, x ∈ chain :=
    ⟨g, List.mem_of_getLast? h.bottom, List.mem_of_getLast? hs.bottom⟩
  obtain ⟨mid, a, rest, rfl, ha, hmid⟩ := exists_first hmeet
  obtain ⟨a', rest', hsplit, hhash⟩ := split_above (List.mem_map_of_mem (f := Block.hash) ha)
  have hchain := hs.tracks.linked
  rw [hsplit] at hchain
  have hbelow := hlinked.suffix hs.tracks.keyed
  have hbelow' := hchain.suffix hs.tracks.keyed
  -- from the common block down there is only one path
  have hkey : (blockLinks P).key a' = (blockLinks P).key a := hhash
  rw [hkey] at hbelow'
  have heq := hbelow.unique hD hs.tracks.keyed hs.tracks.keyed hbelow'
  rw [← heq] at hsplit
  exact ⟨mid, a, rest, rfl, hmid, hsplit⟩

/-- The blocks from the meeting point up to `b`, oldest first. -/
theorem Ancestry.upward {mid rest : List (Block P)} {a : Block P}
    (h : Ancestry s g b (mid ++ a :: rest)) : (a :: mid.reverse).IsChain Follows ∧
      ∀ x ∈ (a :: mid.reverse).getLast?, x.hash = b.header.prevHash := by
  have hlinked := h.linked
  have hrev : a :: mid.reverse = (mid ++ [a]).reverse := by simp
  have hlist : b :: (mid ++ a :: rest) = b :: (mid ++ [a]) ++ rest := by simp
  rw [hlist] at hlinked
  have hup := hlinked.left_of_append
  rw [hrev]
  refine ⟨?_, ?_⟩
  · rw [List.isChain_reverse]
    exact hup.tail
  · intro x hx
    rw [List.getLast?_reverse] at hx
    exact (hup.rel_head? hx).symm

/-- The reorganization to a block whose ancestors are all in the database. -/
theorem Ancestry.findReorgPath {k : Bytes32} {n : ℕ} (hD : DistinctHashes D)
    (hs : Grounded D g s chain) (h : Ancestry s g b anc)
    (hlinked : (blockLinks P).Linked s.blocks k n anc) :
    ∃ top mid a rest, chain = top ++ a :: rest ∧ anc = mid ++ a :: rest ∧
      s.findReorgPath b = some (top.map Block.hash, mid.reverse ++ [b]) := by
  obtain ⟨mid, a, rest, rfl, hmid, hsplit⟩ := h.meets hD hs hlinked
  obtain ⟨hup, hlast⟩ := h.upward
  have ha : a ∈ chain := by
    rw [hsplit]
    simp
  have hlen := hlinked.length_le hs.tracks.keyed
  refine ⟨above chain a.hash, mid, a, rest, hsplit, rfl, ?_⟩
  apply hs.reorgWalk_eq_some hD (Nat.lt_succ_self _) ha ?_ ?_ hup hlast ?_
  · intro f hf
    exact h.stored f (List.mem_append_left _ (List.mem_reverse.mp hf))
  · intro f hf
    exact hmid f (List.mem_reverse.mp hf)
  · rw [List.length_append, List.length_cons] at hlen
    rw [List.length_reverse]
    omega

/-- The sandbox of a reorganization that rolls back exactly, onto blocks that can be replayed. -/
theorem Replica.reorganize_eq_some {top mid rest : List (Block P)} {a : Block P}
    (hD : DistinctHashes D) (h : Replica D g s (top ++ a :: rest))
    (hvalid : (replay (b :: (mid ++ a :: rest))).isSome = true)
    (hexact : ∀ L ∈ replay (a :: rest), Exact (s.revertBlocks top) L) :
    ∃ s' rollbacks applies, s.reorganize (top.map Block.hash) (mid.reverse ++ [b]) =
      some (s', .reorg rollbacks applies) := by
  have htracks := h.grounded.tracks
  have hlen : (top.map Block.hash).length = top.length := List.length_map _
  -- no block above the ancestor is a genesis block, so the rollbacks all go through
  have hpos : ∀ x ∈ (top ++ a :: rest).take top.length, x.height ≠ 0 := by
    rw [List.take_left]
    intro x hx h0
    exact htracks.linked.pos_of_above x hx (by simp [blockLinks, h0])
  have hrolled : Replica D g (s.revertBlocks top) (a :: rest) := by
    have hrolled := h.revertBlocks hD hpos (by rwa [List.drop_left, List.take_left])
    rwa [List.drop_left, List.take_left] at hrolled
  have hrollback : (ChainState.rollbackAll (top.map Block.hash) s).isSome = true :=
    htracks.rollbackAll_isSome (by simp) (by rwa [hlen])
  obtain ⟨⟨s₁, rollbacks⟩, hroll⟩ := Option.isSome_iff_exists.mp hrollback
  obtain ⟨rfl, -⟩ := htracks.rollbackAll hroll
  rw [hlen, List.take_left] at hroll
  -- there the state agrees with the replay, so that the fork goes through as it does there
  obtain ⟨L, hL, hm⟩ := hrolled.mirrors
  have hfork : (replay ((mid.reverse ++ [b]).reverse ++ a :: rest)).isSome = true := by
    simpa using hvalid
  obtain ⟨⟨s₂, applies⟩, happly⟩ := Option.isSome_iff_exists.mp (hm.agrees.applyAll_isSome hL hfork)
  exact ⟨s₂, rollbacks, applies, by simp [ChainState.reorganize, hroll, happly]⟩

/-- **A higher block is applied**, on whatever fork it is, when its ancestors are in the database and
it is valid on top of them. -/
theorem Replica.applies (hD : DistinctHashes D) (h : Replica D g s chain) (hb : D b)
    (hlt : s.currentHeight < b.height) (hanc : Ancestry s g b anc)
    (hvalid : (replay (b :: anc)).isSome = true) (hexact : TriesExactly s b) :
    (s.applyBlock b).2.isApplied = true := by
  obtain ⟨L', hL'⟩ := Option.isSome_iff_exists.mp hvalid
  obtain ⟨L, c, hL, hcheck, -⟩ := replay_cons_eq_some.mp hL'
  have hacc := accepted_of_checkBlock hcheck
  have hval : b.validate = true := hacc.bodyValid
  have hpos : b.height ≠ 0 := by
    intro h0
    rw [h0] at hlt
    exact UInt64.not_lt_zero hlt
  have hstored := h.storeBlock hD hb
  have htracks := h.grounded.tracks
  -- the ancestors hang together in the store
  have hbelow := hanc.linked_below hD htracks hpos hL hacc
  by_cases hlin : s.isLinear b = true
  · -- the ancestors are the chain
    have hprev : b.header.prevHash = s.lastBlockHash := by
      simp only [isLinear, hpos, Bool.or_eq_true, Bool.and_eq_true, beq_iff_eq, false_and, or_false]
        at hlin
      exact hlin.2
    rw [hprev] at hbelow
    obtain rfl := hbelow.unique hD htracks.keyed htracks.keyed htracks.linked
    obtain ⟨L₁, hL₁, hm⟩ := hstored.mirrors
    obtain rfl : L₁ = L := Option.some.inj (hL₁.symm.trans hL)
    have happly := applyLinearBlock_eq_some_iff.mpr ⟨c, (hm.agrees.checkBlock b).trans hcheck, rfl⟩
    simp [ChainState.applyBlock, hval, hlin, happly, ApplyResult.isApplied]
  · have hanc' := hanc.storeBlock hD htracks hb
    have hbelow' := hbelow.transfer htracks.keyed hanc'.stored
    -- they meet the chain at some block, which the walk finds
    obtain ⟨top, mid, a, rest, rfl, rfl, hpath⟩ :=
      hanc'.findReorgPath hD hstored.grounded hbelow'
    have hattempt : s.attemptOf b = some (top.length, mid.reverse ++ [b]) := by
      simp [attemptOf, Checked.ensure, hval, hlin, hlt, hpath]
    have hrolls := hexact _ hattempt
    rw [htracks.activeChain_eq hD, List.drop_left, List.take_left] at hrolls
    obtain ⟨s', rollbacks, applies, hreorg⟩ := hstored.reorganize_eq_some hD hvalid hrolls
    simp [ChainState.applyBlock, hval, hlin, hlt, hpath, hreorg, ApplyResult.isApplied]

end Ancestors

end ChainState

end Haze
