import Haze.Chain.Replay
import Haze.Chain.Store

/-!
# The order of deliveries

A block that arrives before its parent is stored and rejected, and nothing looks at it again until a
higher block is delivered on top of it. The height a node ends with is therefore that of the highest
block which found all its ancestors delivered (`ArrivesComplete`). When every block comes after its
parent that is the highest block whose ancestors are among the blocks at all, in whatever order the
forks are delivered otherwise.
-/

namespace Haze

variable {P : Crypto}

/-- The path from `b` down to the genesis block, newest first, within a list of blocks. -/
structure Lineage (bs : List (Block P)) (g b : Block P) (path : List (Block P)) : Prop where
  mem : ∀ x ∈ path, x ∈ bs
  linked : path.IsChain fun child parent => Follows parent child
  top : path.head? = some b
  bottom : path.getLast? = some g

/-- When `b` arrives, all its ancestors have. -/
def ArrivesComplete (run : List (Block P)) (g b : Block P) : Prop :=
  ∃ arrived path, arrived ++ [b] <+: run ∧ Lineage (arrived ++ [b]) g b path

/-- No block arrives before its parent. -/
def ParentsFirst (run : List (Block P)) : Prop :=
  run.Pairwise fun earlier later => earlier.header.prevHash ≠ later.hash

instance (run : List (Block P)) : Decidable (ParentsFirst run) :=
  inferInstanceAs (Decidable (run.Pairwise fun earlier later => earlier.header.prevHash ≠ later.hash))

section Lineages

variable {bs bs' run : List (Block P)} {g b : Block P} {path : List (Block P)}

theorem Lineage.mono (h : Lineage bs g b path) (hsub : ∀ x ∈ bs, x ∈ bs') : Lineage bs' g b path :=
  ⟨fun x hx => hsub x (h.mem x hx), h.linked, h.top, h.bottom⟩

theorem Lineage.exists_tail (h : Lineage bs g b path) : ∃ anc, path = b :: anc := by
  cases path with
  | nil => cases h.top
  | cons x anc =>
      obtain rfl : x = b := Option.some.inj h.top
      exact ⟨anc, rfl⟩

/-- There is one path down from a block at most. -/
theorem Lineage.unique {path' : List (Block P)} (hD : DistinctHashes (· ∈ bs)) (hg : IsGenesis g)
    (h : Lineage bs g b path) (h' : Lineage bs g b path') : path = path' := by
  induction path generalizing b path' with
  | nil => cases h.top
  | cons x rest ih =>
      obtain rfl : x = b := Option.some.inj h.top
      obtain ⟨rest', rfl⟩ := h'.exists_tail
      -- the genesis block has no parent
      have hend : ∀ {y : Block P} {ys : List (Block P)}, Lineage bs g g (g :: y :: ys) → False := by
        intro y ys hys
        have hy : Follows y g := (List.isChain_cons_cons.mp hys.linked).1
        exact hD.proper y (hys.mem y (by simp)) (hy.symm.trans hg.prevHash)
      cases rest with
      | nil =>
          obtain rfl : x = g := Option.some.inj h.bottom
          cases rest' with
          | nil => rfl
          | cons y ys => exact (hend h').elim
      | cons y ys =>
          cases rest' with
          | nil =>
              obtain rfl : x = g := Option.some.inj h'.bottom
              exact (hend h).elim
          | cons z zs =>
              obtain ⟨hy, hys⟩ := List.isChain_cons_cons.mp h.linked
              obtain ⟨hz, hzs⟩ := List.isChain_cons_cons.mp h'.linked
              obtain rfl : y = z := hD.inj y z (h.mem y (by simp)) (h'.mem z (by simp))
                (hy.symm.trans hz)
              congr 1
              exact ih ⟨fun w hw => h.mem w (List.mem_cons_of_mem _ hw), hys, rfl, h.bottom⟩
                ⟨fun w hw => h'.mem w (List.mem_cons_of_mem _ hw), hzs, rfl, h'.bottom⟩

/-- The first blocks of a run contain the parents of theirs. -/
theorem ParentsFirst.mem_of_follows {arrived rest : List (Block P)} {child parent : Block P}
    (h : ParentsFirst (arrived ++ rest)) (hchild : child ∈ arrived) (hparent : parent ∈ arrived ++ rest)
    (hfollows : Follows parent child) : parent ∈ arrived := by
  rcases List.mem_append.mp hparent with hparent | hparent
  · exact hparent
  · exact absurd hfollows ((List.pairwise_append.mp h).2.2 child hchild parent hparent)

theorem ParentsFirst.mem_of_lineage {arrived rest : List (Block P)} (h : ParentsFirst (arrived ++ rest))
    (hlinked : path.IsChain fun child parent => Follows parent child)
    (hmem : ∀ x ∈ path, x ∈ arrived ++ rest) (htop : ∀ x ∈ path.head?, x ∈ arrived) :
    ∀ x ∈ path, x ∈ arrived := by
  induction path with
  | nil => simp
  | cons child path ih =>
      have hchild : child ∈ arrived := htop child rfl
      rw [List.forall_mem_cons] at hmem ⊢
      rw [List.isChain_cons] at hlinked
      refine ⟨hchild, ih hlinked.2 hmem.2 ?_⟩
      intro parent hparent
      exact h.mem_of_follows hchild (hmem.2 parent (List.mem_of_head? hparent))
        (hlinked.1 parent hparent)

/-- When parents come first, a block arrives complete as soon as its ancestors are in the run. -/
theorem ParentsFirst.arrivesComplete_iff (h : ParentsFirst run) :
    ArrivesComplete run g b ↔ ∃ path, Lineage run g b path := by
  constructor
  · rintro ⟨arrived, path, hprefix, hpath⟩
    exact ⟨path, hpath.mono hprefix.subset⟩
  · rintro ⟨path, hpath⟩
    have hb : b ∈ run := hpath.mem b (List.mem_of_head? hpath.top)
    obtain ⟨arrived, rest, rfl⟩ := List.append_of_mem hb
    have hsplit : arrived ++ b :: rest = (arrived ++ [b]) ++ rest := by simp
    rw [hsplit] at h hpath ⊢
    refine ⟨arrived, path, List.prefix_append _ _, ?_, hpath.linked, hpath.top, hpath.bottom⟩
    apply h.mem_of_lineage hpath.linked hpath.mem
    rw [hpath.top]
    simp

end Lineages

namespace ChainState

variable {D : Block P → Prop} {s : ChainState P} {b g : Block P} {chain : List (Block P)}

/-! ## What has been delivered is stored

A block that passes `validate` is stored, whatever becomes of it, and nothing is ever taken out of the
database. -/

theorem blocks_revertBlocks (s : ChainState P) (bs : List (Block P)) :
    (s.revertBlocks bs).blocks = s.blocks := by
  induction bs generalizing s with
  | nil => rfl
  | cons b bs ih => exact ih (s.revertBlock b).1

/-- A delivery keeps every entry of the database, and a valid block gets its own. -/
theorem Tracks.lookup_applyBlock {k : Bytes32} {x : Block P} (hD : DistinctHashes D)
    (h : Tracks D s chain) (hb : D b)
    (hx : s.blocks.lookup k = some x ∨ b.validate = true ∧ k = b.hash ∧ x = b) :
    (s.applyBlock b).1.blocks.lookup k = some x := by
  have hstored := h.storeBlock hD hb
  -- storing the block keeps the entry, or makes it
  have hkeep : (s.storeBlock b).blocks.lookup k = some x := by
    rcases hx with hx | ⟨-, rfl, rfl⟩
    · exact h.keyed.lookup_insert hD hb hx
    · exact Finmap.lookup_insert _
  have houtcome := outcome_applyBlock s b
  generalize s.applyBlock b = r at houtcome ⊢
  cases houtcome with
  | invalid hval =>
      rcases hx with hx | ⟨hval', -⟩
      · exact hx
      · rw [hval] at hval'
        cases hval'
  | refused _ => exact hkeep
  | linear _ hlinear =>
      obtain ⟨c, -, rfl⟩ := applyLinearBlock_eq_some hlinear
      exact hstored.keyed.lookup_insert hD hb hkeep
  -- a fork stores its blocks once more, under their hashes
  | reorg _ _ hpath hroll happly =>
      obtain ⟨rfl, hrolls⟩ := hstored.rollbackAll hroll
      have hfork := forall_mem_reorgWalk hstored.keyed (by simpa using hb) hpath
      refine (hrolls.tracks.applyAll_induct (motive := fun s _ => s.blocks.lookup k = some x) hD ?_
        hfork (eachApplied_true _ _) ?_ happly).2
      · rw [blocks_revertBlocks]
        exact hkeep
      · intro s chain b c htracks hlookup hb _ _
        exact htracks.keyed.lookup_insert hD hb hlookup

/-! ## The height a run ends with

After any run, the tip is as high as the highest block that came when all its ancestors had come. -/

/-- The heights of the blocks that arrive complete. -/
def completeHeights (run : List (Block P)) (g : Block P) : Set ℕ :=
  {h | ∃ b, ArrivesComplete run g b ∧ b.height.toNat = h}

theorem mem_completeHeights_concat {run : List (Block P)} {h : ℕ} :
    h ∈ completeHeights (run ++ [b]) g ↔
      h ∈ completeHeights run g ∨ h = b.height.toNat ∧ ∃ path, Lineage (run ++ [b]) g b path := by
  constructor
  · rintro ⟨x, ⟨arrived, path, hprefix, hpath⟩, rfl⟩
    rcases List.prefix_concat_iff.mp hprefix with heq | hprefix
    · obtain ⟨rfl, hx⟩ := List.append_inj' heq rfl
      obtain rfl : x = b := List.singleton_injective hx
      exact .inr ⟨rfl, path, hpath⟩
    · exact .inl ⟨x, ⟨arrived, path, hprefix, hpath⟩, rfl⟩
  · rintro (⟨x, ⟨arrived, path, hprefix, hpath⟩, rfl⟩ | ⟨rfl, path, hpath⟩)
    · exact ⟨x, ⟨arrived, path, hprefix.trans (List.prefix_append _ _), hpath⟩, rfl⟩
    · exact ⟨b, ⟨run, path, List.prefix_rfl, hpath⟩, rfl⟩

/-- What a run has led to, as long as rollbacks are exact. -/
structure Settled (g : Block P) (run : List (Block P)) (s : ChainState P) : Prop where
  replica : ∃ chain, Replica (· ∈ run) g s chain
  stored : ∀ x ∈ run, x.validate = true → s.blocks.lookup x.hash = some x
  highest : IsGreatest (completeHeights run g) s.currentHeight.toNat

/-- Every block is valid when it is applied right after its ancestors. -/
def ValidOnAncestors (run : List (Block P)) (g : Block P) : Prop :=
  ∀ b path, Lineage run g b path → (replay path).isSome = true

theorem ValidOnAncestors.mono {run run' : List (Block P)} (h : ValidOnAncestors run' g)
    (hsub : ∀ x ∈ run, x ∈ run') : ValidOnAncestors run g :=
  fun b path hpath => h b path (hpath.mono hsub)

theorem validate_of_replay {path : List (Block P)} (h : (replay path).isSome = true) :
    ∀ x ∈ path, x.validate = true := by
  intro x hx
  obtain ⟨top, rest, rfl⟩ := List.append_of_mem hx
  obtain ⟨L, hL⟩ := Option.isSome_iff_exists.mp (replay_suffix h)
  obtain ⟨L₀, c, -, hcheck, -⟩ := replay_cons_eq_some.mp hL
  exact (accepted_of_checkBlock hcheck).bodyValid

/-- A block that can be replayed is not among its ancestors. -/
theorem not_mem_of_replay {anc : List (Block P)} (hD : DistinctHashes D) (hpath : ∀ x ∈ b :: anc, D x)
    (h : (replay (b :: anc)).isSome = true) : b ∉ anc := by
  obtain ⟨L, hL⟩ := Option.isSome_iff_exists.mp h
  have htracks := tracks_replay hD hpath hL
  have hnodup := htracks.linked.nodup htracks.keyed
  rw [List.map_cons, List.nodup_cons] at hnodup
  intro hb
  exact hnodup.1 (List.mem_map_of_mem hb)

section Step

variable {run : List (Block P)}

/-- A block that arrives complete and is rejected is not higher than the tip. -/
theorem Settled.height_le (hD : DistinctHashes (· ∈ run ++ [b])) (h : Settled g run s)
    (hvalid : ValidOnAncestors (run ++ [b]) g) (hexact : TriesExactly s b)
    (hrejected : (s.applyBlock b).2.isApplied = false) {path : List (Block P)}
    (hpath : Lineage (run ++ [b]) g b path) : b.height.toNat ≤ s.currentHeight.toNat := by
  by_contra hle
  have hlt : s.currentHeight < b.height := UInt64.lt_iff_toNat_lt.mpr (Nat.lt_of_not_le hle)
  obtain ⟨chain, hreplica⟩ := h.replica
  have hreplica' : Replica (· ∈ run ++ [b]) g s chain :=
    hreplica.mono fun x hx => List.mem_append_left _ hx
  have hreplay := hvalid b path hpath
  obtain ⟨anc, rfl⟩ := hpath.exists_tail
  have hnot := not_mem_of_replay hD hpath.mem hreplay
  have hanc : Ancestry s g b anc := by
    refine ⟨?_, hpath.linked, ?_⟩
    · intro x hx
      have hx' := List.mem_cons_of_mem b hx
      apply h.stored x ?_ (validate_of_replay hreplay x hx')
      rcases List.mem_append.mp (hpath.mem x hx') with hrun | hxb
      · exact hrun
      · rw [List.mem_singleton.mp hxb] at hx
        exact absurd hx hnot
    · have hbottom := hpath.bottom
      cases anc with
      | nil =>
          -- the genesis block itself is not higher than anything
          obtain rfl : b = g := Option.some.inj hbottom
          rw [hreplica.grounded.genesis.height] at hlt
          exact absurd hlt UInt64.not_lt_zero
      | cons x anc => exact hbottom
  have happlied := hreplica'.applies hD (by simp) hlt hanc hreplay hexact
  rw [hrejected] at happlied
  cases happlied

/-- An applied block arrives complete, and becomes the tip. -/
theorem Settled.applied (hD : DistinctHashes (· ∈ run ++ [b])) (h : Settled g run s)
    (happlied : (s.applyBlock b).2.isApplied = true) :
    s.currentHeight < b.height ∧ (s.applyBlock b).1.currentHeight = b.height ∧
      ∃ path, Lineage (run ++ [b]) g b path := by
  obtain ⟨chain, hreplica⟩ := h.replica
  have hgrounded : Grounded (· ∈ run ++ [b]) g s chain :=
    hreplica.grounded.mono fun x hx => List.mem_append_left _ hx
  obtain ⟨hashes, fork, ancestor, rest, -, hfork, hlt, hnew⟩ :=
    hgrounded.applyBlock hD (by simp) happlied
  rw [hfork.reverse_eq] at hnew
  have htracks := hnew.tracks
  refine ⟨hlt, htracks.tip_eq.2, _, htracks.linked.of_keyed htracks.keyed,
    htracks.linked.isChain htracks.keyed, rfl, hnew.bottom⟩

/-- One delivery. -/
theorem Settled.applyBlock (hD : DistinctHashes (· ∈ run ++ [b])) (h : Settled g run s)
    (hvalid : ValidOnAncestors (run ++ [b]) g) (hexact : TriesExactly s b) :
    Settled g (run ++ [b]) (s.applyBlock b).1 := by
  obtain ⟨chain, hreplica⟩ := h.replica
  have hreplica' : Replica (· ∈ run ++ [b]) g s chain :=
    hreplica.mono fun x hx => List.mem_append_left _ hx
  refine ⟨hreplica'.applyBlock hD (by simp) hexact, ?_, ?_⟩
  · intro x hx hval
    apply hreplica'.grounded.tracks.lookup_applyBlock hD (by simp)
    rcases List.mem_append.mp hx with hx | hx
    · exact .inl (h.stored x hx hval)
    · obtain rfl := List.mem_singleton.mp hx
      exact .inr ⟨hval, rfl, rfl⟩
  · obtain ⟨hmem, hub⟩ := h.highest
    -- an applied block is the highest, and one that is refused was not complete, or not higher
    cases happlied : (s.applyBlock b).2.isApplied with
    | true =>
        obtain ⟨hlt, hheight, hpath⟩ := h.applied hD happlied
        rw [hheight]
        refine ⟨mem_completeHeights_concat.mpr (.inr ⟨rfl, hpath⟩), ?_⟩
        intro x hx
        rcases mem_completeHeights_concat.mp hx with hx | ⟨rfl, -⟩
        · exact (hub hx).trans (UInt64.lt_iff_toNat_lt.mp hlt).le
        · exact le_rfl
    | false =>
        have hheight : (s.applyBlock b).1.currentHeight = s.currentHeight := by
          rw [applyBlock_rejected happlied]
          split
          · rfl
          · rfl
        rw [hheight]
        refine ⟨mem_completeHeights_concat.mpr (.inl hmem), ?_⟩
        intro x hx
        rcases mem_completeHeights_concat.mp hx with hx | ⟨rfl, path, hpath⟩
        · exact hub hx
        · exact h.height_le hD hvalid hexact happlied hpath

end Step

/-- As long as rollbacks are exact, a run leaves a state that mirrors the replay of its chain. -/
theorem replica_deliver {bs : List (Block P)} (hD : DistinctHashes D) (hg : IsGenesis g)
    (hbs : ∀ b ∈ g :: bs, D b)
    (happlied : ((ChainState.new : ChainState P).applyBlock g).2.isApplied = true)
    (hexact : EachDelivery TriesExactly (g :: bs)) :
    ∃ chain, Replica D g (deliver (g :: bs)) chain := by
  induction bs using List.reverseRecOn with
  | nil => exact ⟨[g], replica_genesis hD hg (hbs g List.mem_cons_self) happlied⟩
  | append_singleton bs b ih =>
      rw [← List.cons_append] at hbs hexact ⊢
      obtain ⟨hbs, hb⟩ := List.forall_mem_append.mp hbs
      obtain ⟨hexact, hlast⟩ := eachDelivery_concat hexact
      obtain ⟨chain, hreplica⟩ := ih hbs hexact
      rw [deliver_concat]
      exact hreplica.applyBlock hD (hb b (List.mem_singleton_self b)) hlast

theorem settled_genesis (hD : DistinctHashes (· ∈ [g])) (hg : IsGenesis g)
    (hvalid : ValidOnAncestors [g] g) :
    Settled g [g] ((ChainState.new : ChainState P).applyBlock g).1 := by
  have hlineage : Lineage [g] g g [g] := ⟨by simp, List.IsChain.singleton g, rfl, rfl⟩
  -- the chain accepts the genesis block, as the replay did
  obtain ⟨L, hL⟩ := Option.isSome_iff_exists.mp (hvalid g [g] hlineage)
  obtain ⟨L₀, c, hL₀, hcheck, -⟩ := replay_cons_eq_some.mp hL
  cases hL₀
  have hval : g.validate = true := (accepted_of_checkBlock hcheck).bodyValid
  have hm := (Mirrors.refl (ChainState.new : ChainState P)).storeBlock hD Tracks.new
    (List.mem_singleton_self g)
  have happly := applyLinearBlock_eq_some_iff.mpr ⟨c, (hm.agrees.checkBlock g).trans hcheck, rfl⟩
  have hlin : (ChainState.new : ChainState P).isLinear g = true := by
    simp [isLinear, hg.height, ChainState.new]
  have happlied : ((ChainState.new : ChainState P).applyBlock g).2.isApplied = true := by
    simp [ChainState.applyBlock, hval, hlin, happly, ApplyResult.isApplied]
  have hreplica := replica_genesis hD hg (List.mem_singleton_self g) happlied
  have htracks := hreplica.grounded.tracks
  refine ⟨⟨[g], hreplica⟩, ?_, ?_⟩
  · intro x hx _
    exact htracks.linked.lookup_eq htracks.keyed x hx
  · rw [htracks.tip_eq.2]
    refine ⟨⟨g, ⟨[], [g], List.prefix_rfl, hlineage⟩, rfl⟩, ?_⟩
    rintro h ⟨x, ⟨arrived, path, hprefix, -⟩, rfl⟩
    have hx : x ∈ [g] := hprefix.subset (by simp)
    rw [List.mem_singleton.mp hx]

/-- A whole run. -/
theorem settled_deliver {bs : List (Block P)} (hD : DistinctHashes (· ∈ g :: bs)) (hg : IsGenesis g)
    (hvalid : ValidOnAncestors (g :: bs) g) (hexact : EachDelivery TriesExactly (g :: bs)) :
    Settled g (g :: bs) (deliver (g :: bs)) := by
  induction bs using List.reverseRecOn with
  | nil => exact settled_genesis hD hg hvalid
  | append_singleton bs b ih =>
      have hsub : ∀ x ∈ g :: bs, x ∈ g :: (bs ++ [b]) := by
        intro x hx
        rw [← List.cons_append]
        exact List.mem_append_left _ hx
      rw [← List.cons_append] at hexact ⊢
      obtain ⟨hexact, hlast⟩ := eachDelivery_concat hexact
      have hprefix := ih (hD.mono hsub) (hvalid.mono hsub) hexact
      rw [deliver_concat]
      exact hprefix.applyBlock hD hvalid hlast

/-- **The order of deliveries and the height.** When every block is valid on its ancestors and the
reorganizations tried roll back exactly, a run ends at the height of the highest block that arrived
after all its ancestors. So any two orders in which no block arrives before its parent end at the same
height, that of the highest block whose ancestors are all among the blocks. -/
theorem delivered_height {bs bs' : List (Block P)} (hperm : bs.Perm bs')
    (hD : DistinctHashes (· ∈ g :: bs)) (hg : IsGenesis g) (hvalid : ValidOnAncestors (g :: bs) g)
    (hexact : EachDelivery TriesExactly (g :: bs)) (hexact' : EachDelivery TriesExactly (g :: bs')) :
    IsGreatest (completeHeights (g :: bs) g) (deliver (g :: bs)).currentHeight.toNat ∧
    IsGreatest (completeHeights (g :: bs') g) (deliver (g :: bs')).currentHeight.toNat ∧
    (ParentsFirst (g :: bs) → ParentsFirst (g :: bs') →
      (deliver (g :: bs)).currentHeight = (deliver (g :: bs')).currentHeight ∧
      IsGreatest {h | ∃ b path, Lineage (g :: bs) g b path ∧ b.height.toNat = h}
        (deliver (g :: bs)).currentHeight.toNat) := by
  have hmem : ∀ x, x ∈ g :: bs' ↔ x ∈ g :: bs := fun x => (hperm.cons g).mem_iff.symm
  have hrun := (settled_deliver hD hg hvalid hexact).highest
  have hrun' := (settled_deliver (hD.mono fun x hx => (hmem x).mp hx) hg
    (hvalid.mono fun x hx => (hmem x).mp hx) hexact').highest
  refine ⟨hrun, hrun', ?_⟩
  intro hfirst hfirst'
  -- with parents first, only the set of blocks matters
  have hset : completeHeights (g :: bs) g =
      {h | ∃ b path, Lineage (g :: bs) g b path ∧ b.height.toNat = h} := by
    ext h
    simp only [completeHeights, hfirst.arrivesComplete_iff, Set.mem_ofPred_eq, exists_and_right]
  have hset' : completeHeights (g :: bs') g = completeHeights (g :: bs) g := by
    ext h
    simp only [completeHeights, hfirst.arrivesComplete_iff, hfirst'.arrivesComplete_iff,
      Set.mem_ofPred_eq]
    have hlineage : ∀ b path, Lineage (g :: bs') g b path ↔ Lineage (g :: bs) g b path :=
      fun b path => ⟨fun h => h.mono fun x hx => (hmem x).mp hx, fun h => h.mono fun x hx =>
        (hmem x).mpr hx⟩
    simp only [hlineage]
  refine ⟨UInt64.toNat_inj.mp ?_, hset ▸ hrun⟩
  rw [hset'] at hrun'
  exact hrun.unique hrun'

end ChainState

/-! ## Reading lineages off a list

The ancestors of a block in a list, found by looking for the hash it names. -/

/-- The path from `b` down, as long as parents are found. -/
def pathTo (bs : List (Block P)) : ℕ → Block P → List (Block P)
  | 0, b => [b]
  | n + 1, b =>
      b :: match bs.find? fun x => x.hash == b.header.prevHash with
        | some parent => pathTo bs n parent
        | none => []

theorem Lineage.eq_pathTo {bs path : List (Block P)} {g b : Block P} {n : ℕ}
    (hD : DistinctHashes (· ∈ bs)) (hg : IsGenesis g)
    (hheights : ∀ parent ∈ bs, ∀ child ∈ bs, child.header.prevHash = parent.hash →
      parent.height < child.height) (h : Lineage bs g b path) (hn : b.height.toNat ≤ n) :
    path = pathTo bs n b := by
  induction path generalizing b n with
  | nil => cases h.top
  | cons x path ih =>
      obtain rfl : x = b := Option.some.inj h.top
      cases path with
      -- at the bottom nothing has the hash that the genesis block names
      | nil =>
          obtain rfl : x = g := Option.some.inj h.bottom
          cases n with
          | zero => rfl
          | succ n =>
              have hnone : bs.find? (fun y => y.hash == x.header.prevHash) = none := by
                rw [List.find?_eq_none]
                intro y hy hhash
                rw [hg.prevHash, beq_iff_eq] at hhash
                exact hD.proper y hy hhash
              rw [pathTo, hnone]
      | cons y path =>
          have hlinked := List.isChain_cons_cons.mp h.linked
          have hx : x ∈ bs := h.mem x (by simp)
          have hy : y ∈ bs := h.mem y (by simp)
          have hlt := UInt64.lt_iff_toNat_lt.mp (hheights y hy x hx hlinked.1)
          obtain ⟨n, rfl⟩ : ∃ m, n = m + 1 := ⟨n - 1, by omega⟩
          -- the only block with the hash is the one on the path
          have hfind : bs.find? (fun z => z.hash == x.header.prevHash) = some y := by
            cases hfind : bs.find? (fun z => z.hash == x.header.prevHash) with
            | none =>
                rw [List.find?_eq_none] at hfind
                exact absurd (beq_iff_eq.mpr hlinked.1.symm) (hfind y hy)
            | some z =>
                have hz := List.find?_some hfind
                have hhash : z.hash = y.hash := (beq_iff_eq.mp hz).trans hlinked.1
                rw [hD.inj z y (List.mem_of_find?_eq_some hfind) hy hhash]
          rw [pathTo, hfind]
          congr 1
          apply ih ⟨?_, hlinked.2, rfl, h.bottom⟩ (by omega)
          exact fun z hz => h.mem z (List.mem_cons_of_mem x hz)

/-- For the blocks of a list, validity on the ancestors can be checked. -/
theorem validOnAncestors_of_pathTo {bs : List (Block P)} {g : Block P} {n : ℕ}
    (hD : DistinctHashes (· ∈ bs)) (hg : IsGenesis g)
    (hheights : ∀ parent ∈ bs, ∀ child ∈ bs, child.header.prevHash = parent.hash →
      parent.height < child.height)
    (h : ∀ b ∈ bs, b.height.toNat ≤ n ∧ (ChainState.replay (pathTo bs n b)).isSome = true) :
    ChainState.ValidOnAncestors bs g := by
  intro b path hpath
  obtain ⟨hn, hreplay⟩ := h b (hpath.mem b (List.mem_of_head? hpath.top))
  rw [hpath.eq_pathTo hD hg hheights hn]
  exact hreplay

namespace Devnet

open ChainState

/-- The first block, its rival and the block on top of the rival, in two orders: one reorganizes, the
other does not. -/
theorem forks_delivered_height :
    (deliver [genesis, firstBlock, rivalBlock, secondBlock]).currentHeight =
      (deliver [genesis, rivalBlock, secondBlock, firstBlock]).currentHeight := by
  have hrun : (zeroHash :: [genesis, firstBlock, rivalBlock, secondBlock].map Block.hash).Nodup ∧
      (∀ parent ∈ [genesis, firstBlock, rivalBlock, secondBlock],
        ∀ child ∈ [genesis, firstBlock, rivalBlock, secondBlock],
          child.header.prevHash = parent.hash → parent.height < child.height) ∧
      (∀ b ∈ [genesis, firstBlock, rivalBlock, secondBlock], b.height.toNat ≤ 2 ∧
        (replay (pathTo [genesis, firstBlock, rivalBlock, secondBlock] 2 b)).isSome = true) ∧
      EachDelivery TriesExactly [genesis, firstBlock, rivalBlock, secondBlock] ∧
      EachDelivery TriesExactly [genesis, rivalBlock, secondBlock, firstBlock] ∧
      ParentsFirst [genesis, firstBlock, rivalBlock, secondBlock] ∧
      ParentsFirst [genesis, rivalBlock, secondBlock, firstBlock] := by
    decide +kernel
  obtain ⟨hnodup, hheights, hpaths, hexact, hexact', hfirst, hfirst'⟩ := hrun
  have hD := distinctHashes_of_nodup hnodup
  have hperm : [firstBlock, rivalBlock, secondBlock].Perm [rivalBlock, secondBlock, firstBlock] :=
    @List.perm_append_comm _ [firstBlock] [rivalBlock, secondBlock]
  obtain ⟨-, -, h⟩ := delivered_height hperm hD ⟨rfl, rfl⟩
    (validOnAncestors_of_pathTo hD ⟨rfl, rfl⟩ hheights hpaths) hexact hexact'
  exact (h hfirst hfirst').1

/-- The second block is never looked at again when the rival comes after it. -/
theorem orphaned_second_block :
    DistinctHashes (· ∈ [genesis, rivalBlock, secondBlock]) ∧
      ValidOnAncestors [genesis, rivalBlock, secondBlock] genesis ∧
      (deliver [genesis, rivalBlock, secondBlock]).currentHeight = 2 ∧
      (deliver [genesis, secondBlock, rivalBlock]).currentHeight = 1 := by
  have hrun : (zeroHash :: [genesis, rivalBlock, secondBlock].map Block.hash).Nodup ∧
      (∀ parent ∈ [genesis, rivalBlock, secondBlock], ∀ child ∈ [genesis, rivalBlock, secondBlock],
        child.header.prevHash = parent.hash → parent.height < child.height) ∧
      (∀ b ∈ [genesis, rivalBlock, secondBlock], b.height.toNat ≤ 2 ∧
        (replay (pathTo [genesis, rivalBlock, secondBlock] 2 b)).isSome = true) ∧
      (deliver [genesis, rivalBlock, secondBlock]).currentHeight = 2 ∧
      (deliver [genesis, secondBlock, rivalBlock]).currentHeight = 1 := by
    decide +kernel
  obtain ⟨hnodup, hheights, hpaths, hinOrder, hreversed⟩ := hrun
  have hD := distinctHashes_of_nodup hnodup
  exact ⟨hD, validOnAncestors_of_pathTo hD ⟨rfl, rfl⟩ hheights hpaths, hinOrder, hreversed⟩

end Devnet

end Haze
