import Haze.Chain.Runs

/-!
# Chains of headers

The hash of a block covers its header only, so a peer can send a header that the node has with another
body, and the store then has that one. What the store has under the tip is still a chain, of blocks with
the headers that were applied (`Reaches.rooted`). Nothing is assumed of bodies: headers are told apart by
their hashes (`DistinctHeaders`), as SHA-256 does.
-/

namespace Haze

namespace ChainState

variable {P : Crypto} {H : BlockHeader P → Prop}

/-- Headers of the collection with one hash are the same, and none hashes to zero. -/
structure DistinctHeaders (H : BlockHeader P → Prop) : Prop where
  inj : ∀ h h', H h → H h' → h.hash = h'.hash → h = h'
  proper : ∀ h, H h → h.hash ≠ zeroHash

theorem distinctHeaders_of_nodup {bs : List (Block P)} (h : (zeroHash :: bs.map Block.hash).Nodup) :
    DistinctHeaders (· ∈ bs.map Block.header) := by
  have hD := distinctHashes_of_nodup h
  refine ⟨?_, ?_⟩
  · intro h h' hh hh' heq
    obtain ⟨b, hb, rfl⟩ := List.mem_map.mp hh
    obtain ⟨b', hb', rfl⟩ := List.mem_map.mp hh'
    exact congrArg Block.header (hD.inj b b' hb hb' heq)
  · intro h hh
    obtain ⟨b, hb, rfl⟩ := List.mem_map.mp hh
    exact hD.proper b hb

/-- The store has blocks with headers of `H`, under their hashes. -/
def Headed (H : BlockHeader P → Prop) (blocks : KeyedMap Bytes32 (Block P)) : Prop :=
  Links.Keyed (blockLinks P) (fun b => H b.header) blocks

theorem Headed.lookup_root (hH : DistinctHeaders H) {blocks : KeyedMap Bytes32 (Block P)}
    (h : Headed H blocks) : blocks.lookup zeroHash = none := by
  cases hr : blocks.lookup zeroHash with
  | none => rfl
  | some b => exact absurd (h _ _ hr).1 (hH.proper b.header (h _ _ hr).2)

/-! ## The chain in a store

The active chain is found from the tip through the store. A block that is stored may have been pruned, but
its header is whole. -/

/-- The store has a chain of blocks under the tip, of that height. -/
structure Rests (H : BlockHeader P → Prop) (blocks : KeyedMap Bytes32 (Block P)) (tip : Bytes32)
    (height : UInt64) (chain : List (Block P)) : Prop where
  headed : Headed H blocks
  linked : (blockLinks P).Linked blocks tip height.toNat chain

section

variable {blocks blocks' : KeyedMap Bytes32 (Block P)} {tip : Bytes32} {height : UInt64}
  {chain : List (Block P)} {b : Block P}

/-- Blocks may be exchanged for others with the same headers. -/
theorem Rests.relinked (h : Rests H blocks tip height chain) (hheaded : Headed H blocks')
    (hsame : ∀ hash b, blocks.lookup hash = some b →
      ∃ b', blocks'.lookup hash = some b' ∧ b'.header = b.header) :
    ∃ chain', Rests H blocks' tip height chain' := by
  obtain ⟨chain', hchain'⟩ := h.linked.relinked (fun hash b hb => by
    obtain ⟨b', hb', hheader⟩ := hsame hash b hb
    exact ⟨b', hb', congrArg BlockHeader.prevHash hheader,
      congrArg (fun h => h.height.toNat) hheader⟩)
  exact ⟨chain', hheaded, hchain'⟩

theorem Rests.insert (hH : DistinctHeaders H) (h : Rests H blocks tip height chain)
    (hb : H b.header) : ∃ chain', Rests H (blocks.insert b.hash b) tip height chain' := by
  have hheaded : Headed H (blocks.insert b.hash b) := Links.Keyed.insert h.headed hb
  refine h.relinked hheaded ?_
  intro hash b' hb'
  by_cases heq : hash = b.hash
  · subst heq
    obtain ⟨hkey, hmem⟩ := h.headed _ _ hb'
    exact ⟨b, Finmap.lookup_insert _, hH.inj _ _ hb hmem hkey.symm⟩
  · exact ⟨b', (Finmap.lookup_insert_of_ne _ heq).trans hb', rfl⟩

/-- The tip can be taken off. -/
theorem Rests.pop (h : Rests H blocks tip height chain) (hpos : height ≠ 0) :
    ∃ top rest, chain = top :: rest ∧ blocks.lookup tip = some top ∧ top.height = height ∧
      Rests H blocks top.header.prevHash (height - 1) rest := by
  have hlinked := h.linked
  cases chain with
  | nil => exact absurd (UInt64.toNat_inj.mp hlinked.2) hpos
  | cons top rest =>
      obtain ⟨hlookup, hheight, hrest⟩ := hlinked
      have hne : height.toNat ≠ 0 := fun h0 => hpos (UInt64.toNat_inj.mp h0)
      have hprev : (height - 1).toNat = height.toNat - 1 := by
        apply UInt64.toNat_sub_of_le
        rw [UInt64.le_iff_toNat_le, UInt64.toNat_one]
        omega
      rw [if_neg hne, ← hprev] at hrest
      exact ⟨top, rest, rfl, hlookup, UInt64.toNat_inj.mp hheight, h.headed, hrest⟩

variable {s : ChainState P} {c : Candidate P}

/-- A block that connects to the tip has a hash of its own: it is higher than the blocks below. -/
theorem Rests.lookup_insert (hH : DistinctHeaders H)
    (h : Rests H blocks s.lastBlockHash s.currentHeight chain) (hb : H b.header)
    (hacc : Accepted s b c) :
    ∀ b' ∈ chain, (blocks.insert b.hash b).lookup b'.hash = some b' := by
  intro b' hb'
  have hlookup : blocks.lookup b'.hash = some b' := h.linked.lookup_eq h.headed b' hb'
  rw [Finmap.lookup_insert_of_ne, hlookup]
  intro heq
  have hheader := hH.inj _ _ (h.headed _ _ hlookup).2 hb heq
  have hle : b'.height.toNat ≤ s.currentHeight.toNat := h.linked.height_le b' hb'
  have hsame : b'.height = b.height := congrArg BlockHeader.height hheader
  rcases hacc.connected with ⟨hnext, -⟩ | ⟨-, -, hzero⟩
  · rw [hsame] at hle
    omega
  · -- below the hash of an empty chain there is nothing
    have hlinked := h.linked
    rw [hzero] at hlinked
    rw [hlinked.eq_nil (h.headed.lookup_root hH)] at hb'
    cases hb'

theorem Rests.push (hH : DistinctHeaders H)
    (h : Rests H blocks s.lastBlockHash s.currentHeight chain) (hb : H b.header)
    (hacc : Accepted s b c) : Rests H (blocks.insert b.hash b) b.hash b.height (b :: chain) := by
  have hlinked := h.linked.transfer h.headed (h.lookup_insert hH hb hacc)
  refine ⟨Links.Keyed.insert h.headed hb, Finmap.lookup_insert _, rfl, ?_⟩
  rcases hacc.connected with ⟨hnext, hprev⟩ | ⟨hzero, hheight, hroot⟩
  · have hpos : b.height.toNat ≠ 0 := by omega
    show if b.height.toNat = 0 then chain = [] else
      (blockLinks P).Linked _ b.header.prevHash (b.height.toNat - 1) chain
    rw [if_neg hpos, hprev, hnext, Nat.add_sub_cancel]
    exact hlinked
  · have h0 : b.height.toNat = 0 := by
      rw [hzero]
      rfl
    show if b.height.toNat = 0 then chain = [] else _
    rw [if_pos h0]
    have hlinked' := h.linked
    rw [hroot] at hlinked'
    exact hlinked'.eq_nil (h.headed.lookup_root hH)

end

/-! ## Reachable states

What deliveries and rollbacks lead to, in any order. -/

/-- The states that `apply_block` and `rollback_block` lead to, with blocks whose headers are in
`H`. -/
inductive Reaches (H : BlockHeader P → Prop) : ChainState P → Prop
  | new : Reaches H ChainState.new
  | apply {s : ChainState P} {b : Block P} :
      Reaches H s → H b.header → Reaches H (s.applyBlock b).1
  | rollback {s s' : ChainState P} {δ : RollbackDelta P} :
      Reaches H s → s.rollbackBlock = some (s', δ) → Reaches H s'

theorem reaches_deliver {bs : List (Block P)} (hH : ∀ b ∈ bs, H b.header) :
    Reaches H (deliver bs) := by
  induction bs using List.reverseRecOn with
  | nil => exact .new
  | append_singleton bs b ih =>
      rw [List.forall_mem_append, List.forall_mem_singleton] at hH
      rw [deliver_concat]
      exact (ih hH.1).apply hH.2

section

variable {s s' : ChainState P} {b : Block P}

/-- The state's own store has the chain. -/
def Rooted (H : BlockHeader P → Prop) (s : ChainState P) : Prop :=
  ∃ chain, Rests H s.blocks s.lastBlockHash s.currentHeight chain

theorem Rooted.rollbackBlock {δ : RollbackDelta P} (h : Rooted H s)
    (hroll : s.rollbackBlock = some (s', δ)) : Rooted H s' := by
  obtain ⟨chain, h⟩ := h
  unfold ChainState.rollbackBlock at hroll
  split at hroll
  · cases hroll
  next hpos =>
    obtain ⟨tip, htip, hrevert⟩ := Option.map_eq_some_iff.mp hroll
    obtain rfl := congrArg Prod.fst hrevert
    obtain ⟨top, rest, -, htop, -, hrest⟩ := h.pop hpos
    obtain rfl : top = tip := Option.some.inj (htop.symm.trans htip)
    exact ⟨rest, hrest⟩

theorem Rooted.rollbackAll {hashes : List Bytes32} {δs : List (RollbackDelta P)} (h : Rooted H s)
    (hroll : ChainState.rollbackAll hashes s = some (s', δs)) : Rooted H s' := by
  induction hashes generalizing s δs with
  | nil =>
      cases hroll
      exact h
  | cons hash hashes ih =>
      simp only [ChainState.rollbackAll, Option.bind_eq_bind, Option.bind_eq_some_iff,
        Option.pure_def, Option.some.injEq] at hroll
      obtain ⟨⟨s₁, δ₁⟩, hfirst, ⟨s₂, δ₂⟩, hrest, heq⟩ := hroll
      obtain rfl : s₂ = s' := congrArg Prod.fst heq
      exact ih (h.rollbackBlock hfirst) hrest

theorem Rooted.applyLinearBlock {δ : AppliedDelta P} (hH : DistinctHeaders H) (h : Rooted H s)
    (hb : H b.header) (happly : s.applyLinearBlock b = some (s', δ)) : Rooted H s' := by
  obtain ⟨chain, h⟩ := h
  obtain ⟨c, hcheck, hcommit⟩ := applyLinearBlock_eq_some_iff.mp happly
  obtain rfl := congrArg Prod.fst hcommit
  exact ⟨b :: chain, h.push hH hb (accepted_of_checkBlock hcheck)⟩

theorem Rooted.applyAll {fork : List (Block P)} {δs : List (AppliedDelta P)}
    (hH : DistinctHeaders H) (h : Rooted H s) (hfork : ∀ b ∈ fork, H b.header)
    (happly : ChainState.applyAll fork s = some (s', δs)) : Rooted H s' := by
  induction fork generalizing s δs with
  | nil =>
      cases happly
      exact h
  | cons b fork ih =>
      simp only [ChainState.applyAll, Option.bind_eq_bind, Option.bind_eq_some_iff, Option.pure_def,
        Option.some.injEq] at happly
      obtain ⟨⟨s₁, δ₁⟩, hfirst, ⟨s₂, δ₂⟩, hrest, heq⟩ := happly
      obtain rfl : s₂ = s' := congrArg Prod.fst heq
      obtain ⟨hb, hfork⟩ := List.forall_mem_cons.mp hfork
      exact ih (h.applyLinearBlock hH hb hfirst) hfork hrest

theorem Rooted.applyBlock (hH : DistinctHeaders H) (h : Rooted H s) (hb : H b.header) :
    Rooted H (s.applyBlock b).1 := by
  obtain ⟨chain, hrests⟩ := h
  obtain ⟨chain', hstored⟩ := hrests.insert hH hb
  have hrooted : Rooted H (s.storeBlock b) := ⟨chain', hstored⟩
  have houtcome := outcome_applyBlock s b
  generalize s.applyBlock b = r at houtcome ⊢
  cases houtcome with
  | invalid _ => exact ⟨chain, hrests⟩
  | refused _ => exact hrooted
  | linear _ happly => exact hrooted.applyLinearBlock hH hb happly
  | reorg _ _ hpath hroll happly =>
      have hkeyed : Links.Keyed (blockLinks P) (fun b => H b.header) (s.storeBlock b).blocks :=
        hstored.headed
      have hfork := forall_mem_reorgWalk hkeyed (by simpa using hb) hpath
      exact (hrooted.rollbackAll hroll).applyAll hH hfork happly

/-- **Every reachable state rests on a chain**, whatever bodies came with the headers. -/
theorem Reaches.rooted (hH : DistinctHeaders H) (h : Reaches H s) : Rooted H s := by
  induction h with
  | new => exact ⟨[], Links.Keyed.empty, rfl, rfl⟩
  | apply _ hb ih => exact ih.applyBlock hH hb
  | rollback _ hroll ih => exact ih.rollbackBlock hroll

/-- The chain is the one that the store is read back as. -/
theorem Rests.activeChain_eq {chain : List (Block P)} (hH : DistinctHeaders H)
    (h : Rests H s.blocks s.lastBlockHash s.currentHeight chain) : s.activeChain = chain :=
  walk_eq_of_linked (h.headed.lookup_root hH) h.linked (Nat.lt_succ_self _)

end

end ChainState

end Haze
