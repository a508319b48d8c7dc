import Haze.Chain.Accept
import Haze.Chain.Reorg
import Haze.Lib.Links

/-!
# Runs

A state reached by deliveries rests on a chain of blocks. `Tracks` says which, and the lemmas here say
how the operations move it: storing a block leaves the chain alone, applying one puts it on top,
rolling back takes the top off. `deliver_induct` is the induction rule for whole runs that every
invariant of `apply_block` is proved with.

A block database is only as good as its keys. The blocks of a run are assumed to have distinct header
hashes, none of them the hash `[0; 32]` that stands for "no block"; nothing is assumed about blocks
outside the run.
-/

namespace Haze

variable {P : Crypto}

/-- Blocks, linked by `prev_hash`. -/
def blockLinks (P : Crypto) : Links Bytes32 (Block P) where
  key := Block.hash
  parent b := b.header.prevHash
  height b := b.height.toNat
  root := zeroHash

/-- Distinct blocks of the collection have distinct header hashes, and none hashes to zero. -/
def DistinctHashes (D : Block P → Prop) : Prop :=
  Links.Distinct (blockLinks P) D

/-- For the blocks of a list, that can be checked. -/
theorem distinctHashes_of_nodup {bs : List (Block P)}
    (h : (zeroHash :: bs.map Block.hash).Nodup) : DistinctHashes (· ∈ bs) := by
  obtain ⟨hzero, hnd⟩ := List.nodup_cons.mp h
  refine ⟨?_, ?_⟩
  · intro b b' hb hb' heq
    exact List.inj_on_of_nodup_map hnd hb hb' heq
  · intro b hb heq
    exact hzero (List.mem_map.mpr ⟨b, hb, heq⟩)

namespace ChainState

variable {D : Block P → Prop} {s s' : ChainState P} {b : Block P} {chain : List (Block P)}

/-- The state's tip rests on `chain`, tip first, and its database holds blocks of `D` only. -/
structure Tracks (D : Block P → Prop) (s : ChainState P) (chain : List (Block P)) : Prop where
  keyed : Links.Keyed (blockLinks P) D s.blocks
  linked : (blockLinks P).Linked s.blocks s.lastBlockHash s.currentHeight.toNat chain

theorem Tracks.new : Tracks D (ChainState.new : ChainState P) [] :=
  ⟨Links.Keyed.empty, rfl, rfl⟩

theorem Tracks.storeBlock (hD : DistinctHashes D) (h : Tracks D s chain) (hb : D b) :
    Tracks D (s.storeBlock b) chain := by
  refine ⟨h.keyed.insert hb, ?_⟩
  exact h.linked.mono fun k b' hk => h.keyed.lookup_insert hD hb hk

theorem Tracks.eq_nil (hD : DistinctHashes D) (h : Tracks D s chain)
    (hz : s.lastBlockHash = zeroHash) : chain = [] := by
  have hlinked := h.linked
  rw [hz] at hlinked
  exact hlinked.eq_nil (h.keyed.lookup_root hD)

/-- The blocks under the tip, once the block has been accepted: a genesis block finds a fresh state. -/
theorem Accepted.chain_eq_nil {c : Candidate P} (hacc : Accepted s b c) (hD : DistinctHashes D)
    (h : Tracks D s chain) (h0 : b.height = 0) : chain = [] := by
  rcases hacc.connected with ⟨hh, -⟩ | ⟨-, -, hz⟩
  · rw [h0] at hh
    simp at hh
  · exact h.eq_nil hD hz

/-- A block that connects to the tip goes on top of the chain. -/
theorem Tracks.push {t : ChainState P} (hD : DistinctHashes D) (h : Tracks D s chain) (hb : D b)
    (hconn : b.height.toNat = s.currentHeight.toNat + 1 ∧ b.header.prevHash = s.lastBlockHash ∨
      b.height = 0 ∧ s.currentHeight = 0 ∧ s.lastBlockHash = zeroHash)
    (hblocks : t.blocks = s.blocks.insert b.hash b) (hheight : t.currentHeight = b.height)
    (htip : t.lastBlockHash = b.hash) : Tracks D t (b :: chain) := by
  have hstore := h.storeBlock hD hb
  constructor
  · rw [hblocks]
    exact hstore.keyed
  -- what `Tracks` asks of the new tip: it is stored, its height is the current one, and the rest of the
  -- chain hangs below it
  rw [hblocks, hheight, htip]
  refine ⟨Finmap.lookup_insert _, rfl, ?_⟩
  split
  next h0 =>
    rcases hconn with ⟨hh, -⟩ | ⟨-, -, hz⟩
    · omega
    · exact h.eq_nil hD hz
  next hne =>
    rcases hconn with ⟨hh, hprev⟩ | ⟨h0, -, -⟩
    · have hn : b.height.toNat - 1 = s.currentHeight.toNat := by omega
      show (blockLinks P).Linked _ b.header.prevHash (b.height.toNat - 1) chain
      rw [hprev, hn]
      exact hstore.linked
    · rw [h0] at hne
      exact absurd rfl hne

theorem Tracks.commitBlock {c : Candidate P} (hD : DistinctHashes D) (h : Tracks D s chain)
    (hb : D b) (hacc : Accepted s b c) : Tracks D (s.commitBlock b c).1 (b :: chain) :=
  h.push hD hb hacc.connected rfl rfl rfl

/-- A tip that is not of height 0 can be taken off. -/
theorem Tracks.pop {t : ChainState P} {tip : Block P} {rest : List (Block P)}
    (h : Tracks D s (tip :: rest)) (hne : tip.height ≠ 0) (hblocks : t.blocks = s.blocks)
    (hheight : t.currentHeight = s.currentHeight - 1)
    (htip : t.lastBlockHash = tip.header.prevHash) :
    Tracks D t rest ∧ t.currentHeight.toNat + 1 = s.currentHeight.toNat := by
  obtain ⟨-, hh, hrest⟩ := h.linked
  have hh' : tip.height.toNat = s.currentHeight.toNat := hh
  have hn : s.currentHeight.toNat ≠ 0 := by
    intro h0
    exact hne (UInt64.toNat_inj.mp (hh'.trans h0))
  have hle : (1 : UInt64) ≤ s.currentHeight := by
    rw [UInt64.le_iff_toNat_le, UInt64.toNat_one]
    omega
  have hprev : t.currentHeight.toNat = s.currentHeight.toNat - 1 := by
    rw [hheight]
    exact UInt64.toNat_sub_of_le _ _ hle
  rw [if_neg hn] at hrest
  refine ⟨⟨hblocks ▸ h.keyed, ?_⟩, by omega⟩
  rw [hprev, hblocks, htip]
  exact hrest

theorem Tracks.revertBlock {tip : Block P} {rest : List (Block P)} (h : Tracks D s (tip :: rest))
    (hne : tip.height ≠ 0) :
    Tracks D (s.revertBlock tip).1 rest ∧
      (s.revertBlock tip).1.currentHeight.toNat + 1 = s.currentHeight.toNat :=
  h.pop hne rfl rfl rfl

/-- The block found under the tip hash, above height 0, is the top of the chain. -/
theorem Tracks.exists_tail {tip : Block P} (h : Tracks D s chain) (hpos : s.currentHeight ≠ 0)
    (htip : s.blocks.lookup s.lastBlockHash = some tip) :
    ∃ rest, chain = tip :: rest ∧ tip.height = s.currentHeight := by
  have hlinked := h.linked
  cases chain with
  | nil => exact absurd (UInt64.toNat_inj.mp hlinked.2) hpos
  | cons b rest =>
      obtain ⟨hlookup, hheight, -⟩ := hlinked
      obtain rfl : tip = b := Option.some.inj (htip.symm.trans hlookup)
      exact ⟨rest, rfl, UInt64.toNat_inj.mp hheight⟩

/-- A rollback takes off the tip of the chain, which is not of height 0. -/
theorem Tracks.rollbackBlock {δ : RollbackDelta P} (h : Tracks D s chain)
    (hroll : s.rollbackBlock = some (s', δ)) :
    ∃ tip rest, chain = tip :: rest ∧ tip.height ≠ 0 ∧ tip.height = s.currentHeight ∧
      s' = (s.revertBlock tip).1 ∧ Tracks D s' rest := by
  unfold ChainState.rollbackBlock at hroll
  split at hroll
  · cases hroll
  next hpos =>
    obtain ⟨tip, htip, heq⟩ := Option.map_eq_some_iff.mp hroll
    obtain ⟨rest, rfl, hheight⟩ := h.exists_tail hpos htip
    have hs' : s' = (s.revertBlock tip).1 := by rw [heq]
    have hne : tip.height ≠ 0 := hheight ▸ hpos
    exact ⟨tip, rest, rfl, hne, hheight, hs', hs' ▸ (h.revertBlock hne).1⟩

/-- Rolling back the blocks of a list, tip first. -/
def revertBlocks (s : ChainState P) (bs : List (Block P)) : ChainState P :=
  bs.foldl (fun s b => (s.revertBlock b).1) s

/-- The top `n` blocks of the chain can be rolled back: none of them is of height 0. -/
structure RollsBack (D : Block P → Prop) (s : ChainState P) (chain : List (Block P)) (n : ℕ) :
    Prop where
  start : Tracks D s chain
  le : n ≤ chain.length
  pos : ∀ b ∈ chain.take n, b.height ≠ 0
  tracks : Tracks D (s.revertBlocks (chain.take n)) (chain.drop n)

theorem Tracks.revertBlocks {n : ℕ} (h : Tracks D s chain)
    (hpos : ∀ b ∈ chain.take n, b.height ≠ 0) :
    Tracks D (s.revertBlocks (chain.take n)) (chain.drop n) := by
  induction n generalizing s chain with
  | zero => exact h
  | succ n ih =>
      cases chain with
      | nil => exact h
      | cons b rest =>
          obtain ⟨hne, hpos⟩ := List.forall_mem_cons.mp hpos
          exact ih (h.revertBlock hne).1 hpos

/-- So can fewer. -/
theorem RollsBack.of_le {n m : ℕ} (h : RollsBack D s chain n) (hm : m ≤ n) :
    RollsBack D s chain m := by
  have hpos : ∀ b ∈ chain.take m, b.height ≠ 0 := by
    intro b hb
    exact h.pos b (List.take_subset_take_left chain hm hb)
  exact ⟨h.start, hm.trans h.le, hpos, h.start.revertBlocks hpos⟩

theorem Tracks.rollbackAll {hashes : List Bytes32} {δs : List (RollbackDelta P)}
    (h : Tracks D s chain) (hroll : ChainState.rollbackAll hashes s = some (s', δs)) :
    s' = s.revertBlocks (chain.take hashes.length) ∧ RollsBack D s chain hashes.length := by
  induction hashes generalizing s chain δs with
  | nil =>
      cases hroll
      exact ⟨rfl, h, Nat.zero_le _, by simp, h⟩
  | cons hash hashes ih =>
      simp only [ChainState.rollbackAll, Option.bind_eq_bind, Option.bind_eq_some_iff, Option.pure_def,
        Option.some.injEq] at hroll
      obtain ⟨⟨s₁, δ₁⟩, hfirst, ⟨s₂, δ₂⟩, hrest, heq⟩ := hroll
      obtain ⟨tip, rest, rfl, hne, -, rfl, htracks⟩ := h.rollbackBlock hfirst
      obtain rfl : s₂ = s' := congrArg Prod.fst heq
      obtain ⟨hs', hrolls⟩ := ih htracks hrest
      refine ⟨hs', h, Nat.succ_le_succ hrolls.le, ?_, hrolls.tracks⟩
      rw [List.length_cons, List.take_succ_cons, List.forall_mem_cons]
      exact ⟨hne, hrolls.pos⟩

/-! ## The active chain

`active_chain` walks from the tip hash along `prev_hash` until a hash is missing or a block has height zero.
On a state that tracks a chain the walk meets exactly that chain: heights fall by one, so the fuel given by
the tip height suffices, and nothing is stored under the zero hash that genesis points to. -/

theorem walk_eq_of_linked {blocks : KeyedMap Bytes32 (Block P)} {fuel n : ℕ} {hash : Bytes32}
    (hroot : blocks.lookup zeroHash = none) (h : (blockLinks P).Linked blocks hash n chain)
    (hfuel : n < fuel) : walk blocks fuel hash = chain := by
  induction chain generalizing fuel n hash with
  | nil =>
      obtain ⟨rfl, rfl⟩ := h
      cases fuel with
      | zero => rfl
      | succ fuel =>
          show walk blocks (fuel + 1) zeroHash = []
          simp only [walk, hroot]
  | cons b rest ih =>
      obtain ⟨hlookup, hheight, hrest⟩ := h
      have hheight' : b.height.toNat = n := hheight
      cases fuel with
      | zero => omega
      | succ fuel =>
          simp only [walk, hlookup]
          congr 1
          split at hrest
          next h0 =>
            have hb0 : b.height = 0 := UInt64.toNat_inj.mp (hheight'.trans h0)
            rw [if_pos hb0, hrest]
          next h0 =>
            have hb0 : b.height ≠ 0 := by
              intro hb0
              rw [hb0] at hheight'
              exact h0 hheight'.symm
            rw [if_neg hb0]
            exact ih hrest (by omega)

/-- The chain a state rests on is the one that the database is read back as. -/
theorem Tracks.activeChain_eq (hD : DistinctHashes D) (h : Tracks D s chain) :
    s.activeChain = chain :=
  walk_eq_of_linked (h.keyed.lookup_root hD) h.linked (Nat.lt_succ_self _)

/-! ## One delivery

Every theorem about whole runs needs to know what one call of `apply_block` can do, and nothing more. The
call is opened once, in `outcome_applyBlock`; the induction rules after it turn that into a rule for one
delivery and then for a list of deliveries. A rule asks for three facts about the property: that storing a
block keeps it, that applying an accepted block keeps it, and that taking back the last blocks keeps it. -/

/-- The reorganization that delivering `b` brings about, when it does: how many blocks it rolls back,
and the fork it applies. -/
def reorgOf (s : ChainState P) (b : Block P) : Option (ℕ × List (Block P)) := do
  Checked.ensure (b.validate && !s.isLinear b && b.height > s.currentHeight)
  let (hashes, fork) ← (s.storeBlock b).findReorgPath b
  let _ ← (s.storeBlock b).reorganize hashes fork
  return (hashes.length, fork)

/-- The four things a delivery can do. -/
inductive Outcome (s : ChainState P) (b : Block P) : ChainState P × ApplyResult P → Prop
  | invalid : b.validate = false → Outcome s b (s, .rejected)
  | refused : b.validate = true → Outcome s b (s.storeBlock b, .rejected)
  | linear {s' : ChainState P} {δ : AppliedDelta P} :
      s.isLinear b = true → (s.storeBlock b).applyLinearBlock b = some (s', δ) →
        Outcome s b (s', .linear δ)
  | reorg {hashes : List Bytes32} {fork : List (Block P)} {s₁ s₂ : ChainState P}
      {rollbacks : List (RollbackDelta P)} {applies : List (AppliedDelta P)} :
      b.height > s.currentHeight → s.reorgOf b = some (hashes.length, fork) →
        (s.storeBlock b).findReorgPath b = some (hashes, fork) →
        rollbackAll hashes (s.storeBlock b) = some (s₁, rollbacks) →
        applyAll fork s₁ = some (s₂, applies) → Outcome s b (s₂, .reorg rollbacks applies)

theorem outcome_applyBlock (s : ChainState P) (b : Block P) : Outcome s b (s.applyBlock b) := by
  by_cases hval : b.validate = true
  swap
  · simp only [applyBlock, hval, Bool.not_false, if_true]
    exact .invalid (Bool.eq_false_of_not_eq_true hval)
  by_cases hlin : s.isLinear b = true
  · cases happly : (s.storeBlock b).applyLinearBlock b with
    | none => simpa [applyBlock, hval, hlin, happly] using .refused hval
    | some r => simpa [applyBlock, hval, hlin, happly] using .linear hlin happly
  -- neither next nor higher: the block stays in the database and nothing else happens
  by_cases hheight : b.height > s.currentHeight
  swap
  · simpa [applyBlock, hval, hlin, hheight] using .refused hval
  cases hpath : (s.storeBlock b).findReorgPath b with
  | none => simpa [applyBlock, hval, hlin, hheight, hpath] using .refused hval
  | some path =>
      cases hreorg : (s.storeBlock b).reorganize path.1 path.2 with
      | none => simpa [applyBlock, hval, hlin, hheight, hpath, hreorg] using .refused hval
      -- every block of both lists went through, so the sandboxed state is the one that is kept
      | some r =>
          have hstate : s.applyBlock b = r := by
            simp [applyBlock, hval, hlin, hheight, hpath, hreorg]
          have hplan : s.reorgOf b = some (path.1.length, path.2) := by
            simp [reorgOf, Checked.ensure, hval, hlin, hheight, hpath, hreorg]
          simp only [reorganize, Option.bind_eq_bind, Option.bind_eq_some_iff, Option.pure_def,
            Option.some.injEq] at hreorg
          obtain ⟨⟨s₁, rollbacks⟩, hroll, ⟨s₂, applies⟩, happly, rfl⟩ := hreorg
          rw [hstate]
          exact .reorg hheight hplan hpath hroll happly

/-- The fork consists of the new block and of blocks in the database. -/
theorem forall_mem_reorgWalk {walkFuel fuel : ℕ} {hash : Bytes32} {acc fork : List (Block P)}
    {hashes : List Bytes32} (hkeyed : Links.Keyed (blockLinks P) D s.blocks)
    (hacc : ∀ b ∈ acc, D b) (h : s.reorgWalk walkFuel fuel hash acc = some (hashes, fork)) :
    ∀ b ∈ fork, D b := by
  induction fuel generalizing hash acc with
  | zero => cases h
  | succ fuel ih =>
      unfold reorgWalk at h
      split at h
      · cases h
      split at h
      · cases h
        exact hacc
      split at h
      next parent hparent =>
        apply ih ?_ h
        rw [List.forall_mem_cons]
        exact ⟨(hkeyed _ _ hparent).2, hacc⟩
      next => cases h

/-- `Q` holds of every block of the list and the state it is applied on. -/
def EachApplied (Q : ChainState P → Block P → Prop) : List (Block P) → ChainState P → Prop
  | [], _ => True
  | b :: bs, s => Q s b ∧ ∀ r ∈ s.applyLinearBlock b, EachApplied Q bs r.1

/-- `Q` holds of every block that is applied while `b` is delivered, and the state it is applied
on. -/
def DeliveryApplies (Q : ChainState P → Block P → Prop) (s : ChainState P) (b : Block P) : Prop :=
  (s.isLinear b = true → Q (s.storeBlock b) b) ∧
    ∀ r ∈ s.reorgOf b,
      EachApplied Q r.2 ((s.storeBlock b).revertBlocks (s.activeChain.take r.1))

/-- `Q` holds of every delivery of a run, and the state it finds. -/
def EachDelivery (Q : ChainState P → Block P → Prop) (bs : List (Block P)) : Prop :=
  ∀ i < bs.length, ∀ b ∈ bs[i]?, Q (deliver (bs.take i)) b

section Decidable

variable (Q : ChainState P → Block P → Prop) [∀ s b, Decidable (Q s b)]

instance instDecidableEachApplied :
    (bs : List (Block P)) → (s : ChainState P) → Decidable (EachApplied Q bs s)
  | [], _ => isTrue trivial
  | b :: bs, s =>
      have : ∀ s, Decidable (EachApplied Q bs s) := instDecidableEachApplied bs
      inferInstanceAs (Decidable (Q s b ∧ ∀ r ∈ s.applyLinearBlock b, EachApplied Q bs r.1))

instance (s : ChainState P) (b : Block P) : Decidable (DeliveryApplies Q s b) :=
  inferInstanceAs (Decidable ((s.isLinear b = true → Q (s.storeBlock b) b) ∧ ∀ r ∈ s.reorgOf b,
    EachApplied Q r.2 ((s.storeBlock b).revertBlocks (s.activeChain.take r.1))))

instance (bs : List (Block P)) : Decidable (EachDelivery Q bs) :=
  inferInstanceAs (Decidable (∀ i < bs.length, ∀ b ∈ bs[i]?, Q (deliver (bs.take i)) b))

end Decidable

theorem EachApplied.mono {Q Q' : ChainState P → Block P → Prop} (hQ : ∀ s b, Q s b → Q' s b)
    {bs : List (Block P)} {s : ChainState P} (h : EachApplied Q bs s) : EachApplied Q' bs s := by
  induction bs generalizing s with
  | nil => trivial
  | cons b bs ih => exact ⟨hQ s b h.1, fun r hr => ih (h.2 r hr)⟩

theorem EachDelivery.mono {Q Q' : ChainState P → Block P → Prop} {bs : List (Block P)}
    (h : EachDelivery Q bs) (hQ : ∀ s b, Q s b → Q' s b) : EachDelivery Q' bs :=
  fun i hi b hb => hQ _ _ (h i hi b hb)

theorem eachApplied_true (bs : List (Block P)) (s : ChainState P) :
    EachApplied (fun _ _ => True) bs s := by
  induction bs generalizing s with
  | nil => trivial
  | cons b bs ih => exact ⟨trivial, fun r _ => ih r.1⟩

theorem deliveryApplies_true : DeliveryApplies (fun _ _ => True) s b :=
  ⟨fun _ => trivial, fun _ _ => eachApplied_true _ _⟩

theorem eachDelivery_concat {Q : ChainState P → Block P → Prop} {bs : List (Block P)}
    (h : EachDelivery Q (bs ++ [b])) : EachDelivery Q bs ∧ Q (deliver bs) b := by
  constructor
  · intro i hi x hx
    have hx' : (bs ++ [b])[i]? = some x := by rw [List.getElem?_append_left hi]; exact hx
    have hQ := h i (by rw [List.length_append]; omega) x hx'
    rwa [List.take_append_of_le_length hi.le] at hQ
  · have hQ := h bs.length (by simp) b (by simp)
    rwa [List.take_left] at hQ

theorem deliver_concat (bs : List (Block P)) (b : Block P) :
    deliver (bs ++ [b]) = ((deliver bs).applyBlock b).1 := by
  unfold deliver
  rw [List.foldl_append, List.foldl_cons, List.foldl_nil]

section Rules

variable {Q : ChainState P → Block P → Prop} {motive : ChainState P → List (Block P) → Prop}

theorem Tracks.applyAll_induct {fork : List (Block P)} {δs : List (AppliedDelta P)}
    (hD : DistinctHashes D) (h : Tracks D s chain) (hm : motive s chain) (hfork : ∀ b ∈ fork, D b)
    (hQ : EachApplied Q fork s)
    (apply : ∀ {s : ChainState P} {chain : List (Block P)} {b : Block P} {c : Candidate P},
      Tracks D s chain → motive s chain → D b → s.checkBlock b = some c → Q s b →
        motive (s.commitBlock b c).1 (b :: chain))
    (happly : ChainState.applyAll fork s = some (s', δs)) :
    Tracks D s' (fork.reverse ++ chain) ∧ motive s' (fork.reverse ++ chain) := by
  -- the fork goes on block by block; the conditions on it were asked of the intermediate states, which
  -- `EachApplied` follows
  induction fork generalizing s chain δs with
  | nil =>
      cases happly
      exact ⟨h, hm⟩
  | cons b fork ih =>
      simp only [ChainState.applyAll, Option.bind_eq_bind, Option.bind_eq_some_iff, Option.pure_def,
        Option.some.injEq] at happly
      obtain ⟨⟨s₁, δ₁⟩, hfirst, ⟨s₂, δ₂⟩, hrest, heq⟩ := happly
      obtain rfl : s₂ = s' := congrArg Prod.fst heq
      obtain ⟨c, hcheck, hcommit⟩ := applyLinearBlock_eq_some_iff.mp hfirst
      obtain rfl : (s.commitBlock b c).1 = s₁ := congrArg Prod.fst hcommit
      obtain ⟨hb, hfork⟩ := List.forall_mem_cons.mp hfork
      rw [List.reverse_cons, List.append_assoc, List.singleton_append]
      exact ih (h.commitBlock hD hb (accepted_of_checkBlock hcheck)) (apply h hm hb hcheck hQ.1) hfork
        (hQ.2 (_, δ₁) hfirst) hrest

/-- Where applying a fork leads. -/
theorem Tracks.applyAll {fork : List (Block P)} {δs : List (AppliedDelta P)} (hD : DistinctHashes D)
    (h : Tracks D s chain) (hfork : ∀ b ∈ fork, D b)
    (happly : ChainState.applyAll fork s = some (s', δs)) : Tracks D s' (fork.reverse ++ chain) :=
  (h.applyAll_induct (motive := fun _ _ => True) hD trivial hfork (eachApplied_true _ _)
    (fun _ _ _ _ _ => trivial) happly).1

/-- **The rule for one delivery.** An invariant of the state and the chain it rests on has to survive
three things: a block entering the database, a block applied on top, and the rollback of a
reorganization. -/
theorem Tracks.applyBlock_induct (hD : DistinctHashes D) (h : Tracks D s chain) (hb : D b)
    (hm : motive s chain) (hQ : DeliveryApplies Q s b)
    (store : ∀ {s : ChainState P} {chain : List (Block P)} {b : Block P},
      Tracks D s chain → D b → motive s chain → motive (s.storeBlock b) chain)
    (apply : ∀ {s : ChainState P} {chain : List (Block P)} {b : Block P} {c : Candidate P},
      Tracks D s chain → motive s chain → D b → s.checkBlock b = some c → Q s b →
        motive (s.commitBlock b c).1 (b :: chain))
    (rollback : ∀ r ∈ s.reorgOf b, RollsBack D (s.storeBlock b) chain r.1 →
      motive (s.storeBlock b) chain →
        motive ((s.storeBlock b).revertBlocks (chain.take r.1)) (chain.drop r.1)) :
    ∃ chain', Tracks D (s.applyBlock b).1 chain' ∧ motive (s.applyBlock b).1 chain' := by
  have hstored : Tracks D (s.storeBlock b) chain := h.storeBlock hD hb
  have houtcome := outcome_applyBlock s b
  generalize s.applyBlock b = r at houtcome ⊢
  cases houtcome with
  | invalid _ => exact ⟨chain, h, hm⟩
  | refused _ => exact ⟨chain, hstored, store h hb hm⟩
  | linear hlin hlinear =>
      obtain ⟨c, hcheck, hcommit⟩ := applyLinearBlock_eq_some_iff.mp hlinear
      obtain rfl := congrArg Prod.fst hcommit
      exact ⟨b :: chain, hstored.commitBlock hD hb (accepted_of_checkBlock hcheck),
        apply hstored (store h hb hm) hb hcheck (hQ.1 hlin)⟩
  | reorg _ hplan hpath hroll happly =>
      obtain ⟨rfl, hrolls⟩ := hstored.rollbackAll hroll
      have hrolled := rollback _ hplan hrolls (store h hb hm)
      have hfork := forall_mem_reorgWalk hstored.keyed (by simpa using hb) hpath
      have happlied := hQ.2 _ hplan
      rw [h.activeChain_eq hD] at happlied
      exact ⟨_, hrolls.tracks.applyAll_induct hD hrolled hfork happlied apply happly⟩

theorem deliver_take_succ {bs : List (Block P)} {i : ℕ} {b : Block P} (hb : bs[i]? = some b) :
    deliver (bs.take (i + 1)) = ((deliver (bs.take i)).applyBlock b).1 := by
  unfold deliver
  rw [List.take_add_one, hb, List.foldl_append]
  rfl

/-- **The induction rule for runs** of `apply_block`, from any point of the run on. The invariant may
rely on what is known of every delivery (`C`) and of every block applied (`Q`). -/
theorem deliver_induct_from {C : ChainState P → Block P → Prop} {bs : List (Block P)} {k : ℕ}
    (hk : k ≤ bs.length) (hD : DistinctHashes (· ∈ bs)) (hC : EachDelivery C bs)
    (start : ∃ chain, Tracks (· ∈ bs) (deliver (bs.take k)) chain ∧ motive (deliver (bs.take k)) chain)
    (hQ : ∀ {s : ChainState P} {b : Block P}, C s b → DeliveryApplies Q s b)
    (store : ∀ {s : ChainState P} {chain : List (Block P)} {b : Block P},
      Tracks (· ∈ bs) s chain → b ∈ bs → motive s chain → motive (s.storeBlock b) chain)
    (apply : ∀ {s : ChainState P} {chain : List (Block P)} {b : Block P} {c : Candidate P},
      Tracks (· ∈ bs) s chain → motive s chain → b ∈ bs → s.checkBlock b = some c → Q s b →
        motive (s.commitBlock b c).1 (b :: chain))
    (rollback : ∀ {s : ChainState P} {chain : List (Block P)} {b : Block P},
      Tracks (· ∈ bs) s chain → C s b → ∀ r ∈ s.reorgOf b,
        RollsBack (· ∈ bs) (s.storeBlock b) chain r.1 → motive (s.storeBlock b) chain →
          motive ((s.storeBlock b).revertBlocks (chain.take r.1)) (chain.drop r.1)) :
    ∃ chain, Tracks (· ∈ bs) (deliver bs) chain ∧ motive (deliver bs) chain := by
  -- the first `i` deliveries, for every `i` from `k` on
  suffices hprefix : ∀ i, k ≤ i → i ≤ bs.length → ∃ chain,
      Tracks (· ∈ bs) (deliver (bs.take i)) chain ∧ motive (deliver (bs.take i)) chain by
    simpa using hprefix bs.length hk le_rfl
  intro i hki
  induction i, hki using Nat.le_induction with
  | base => exact fun _ => start
  | succ i _ ih =>
      intro hi
      obtain ⟨chain, htracks, hm⟩ := ih (Nat.le_of_succ_le hi)
      have hget : bs[i]? = some bs[i] := List.getElem?_eq_getElem hi
      have hcond : C (deliver (bs.take i)) bs[i] := hC i hi _ hget
      rw [deliver_take_succ hget]
      exact htracks.applyBlock_induct hD (List.getElem_mem hi) hm (hQ hcond) store apply
        (rollback htracks hcond)

/-- The same, from a fresh node. -/
theorem deliver_induct {C : ChainState P → Block P → Prop} {bs : List (Block P)}
    (hD : DistinctHashes (· ∈ bs)) (hC : EachDelivery C bs)
    (new : motive ChainState.new [])
    (hQ : ∀ {s : ChainState P} {b : Block P}, C s b → DeliveryApplies Q s b)
    (store : ∀ {s : ChainState P} {chain : List (Block P)} {b : Block P},
      Tracks (· ∈ bs) s chain → b ∈ bs → motive s chain → motive (s.storeBlock b) chain)
    (apply : ∀ {s : ChainState P} {chain : List (Block P)} {b : Block P} {c : Candidate P},
      Tracks (· ∈ bs) s chain → motive s chain → b ∈ bs → s.checkBlock b = some c → Q s b →
        motive (s.commitBlock b c).1 (b :: chain))
    (rollback : ∀ {s : ChainState P} {chain : List (Block P)} {b : Block P},
      Tracks (· ∈ bs) s chain → C s b → ∀ r ∈ s.reorgOf b,
        RollsBack (· ∈ bs) (s.storeBlock b) chain r.1 → motive (s.storeBlock b) chain →
          motive ((s.storeBlock b).revertBlocks (chain.take r.1)) (chain.drop r.1)) :
    ∃ chain, Tracks (· ∈ bs) (deliver bs) chain ∧ motive (deliver bs) chain :=
  deliver_induct_from (Nat.zero_le _) hD hC ⟨[], Tracks.new, new⟩ hQ store apply rollback

end Rules

/-! ## Invariants of the state alone

What does not mention the chain needs no assumption on hashes. -/

section Invariants

variable {I : ChainState P → Prop}

theorem rollbackBlock_invariant (revert : ∀ {s : ChainState P} {tip : Block P}, I s →
      I (s.revertBlock tip).1) {δ : RollbackDelta P} (h : I s)
    (hroll : s.rollbackBlock = some (s', δ)) : I s' := by
  unfold ChainState.rollbackBlock at hroll
  split at hroll
  · cases hroll
  · obtain ⟨tip, -, htip⟩ := Option.map_eq_some_iff.mp hroll
    obtain rfl := congrArg Prod.fst htip
    exact revert h

theorem rollbackAll_invariant (revert : ∀ {s : ChainState P} {tip : Block P}, I s →
      I (s.revertBlock tip).1) {hashes : List Bytes32} {δs : List (RollbackDelta P)} (h : I s)
    (hroll : ChainState.rollbackAll hashes s = some (s', δs)) : I s' := by
  induction hashes generalizing s δs with
  | nil =>
      cases hroll
      exact h
  | cons hash hashes ih =>
      simp only [ChainState.rollbackAll, Option.bind_eq_bind, Option.bind_eq_some_iff,
        Option.pure_def, Option.some.injEq] at hroll
      obtain ⟨⟨s₁, δ₁⟩, hfirst, ⟨s₂, δ₂⟩, hrest, heq⟩ := hroll
      obtain rfl : s₂ = s' := congrArg Prod.fst heq
      exact ih (rollbackBlock_invariant revert h hfirst) hrest

theorem applyAll_append (bs bs' : List (Block P)) (s : ChainState P) :
    ChainState.applyAll (bs ++ bs') s = (ChainState.applyAll bs s).bind fun r =>
      (ChainState.applyAll bs' r.1).map fun r' => (r'.1, r.2 ++ r'.2) := by
  induction bs generalizing s with
  | nil => simp [ChainState.applyAll]
  | cons b bs ih => simp [ChainState.applyAll, ih, Option.map_eq_bind, Option.bind_assoc]

/-- **The rule for linear runs.** What every block carries from the chain below to the chain with the
block on top holds when all blocks have been applied. -/
theorem applyAll_induct {motive : ChainState P → List (Block P) → Prop}
    (apply : ∀ {s : ChainState P} {chain : List (Block P)} {b : Block P} {c : Candidate P},
      motive s chain → s.checkBlock b = some c → motive (s.commitBlock b c).1 (b :: chain))
    {bs chain : List (Block P)} {δs : List (AppliedDelta P)} (h : motive s chain)
    (happly : ChainState.applyAll bs s = some (s', δs)) : motive s' (bs.reverse ++ chain) := by
  induction bs generalizing s chain δs with
  | nil =>
      cases happly
      exact h
  | cons b bs ih =>
      simp only [ChainState.applyAll, Option.bind_eq_bind, Option.bind_eq_some_iff, Option.pure_def,
        Option.some.injEq] at happly
      obtain ⟨⟨s₁, δ₁⟩, hfirst, ⟨s₂, δ₂⟩, hrest, heq⟩ := happly
      obtain rfl : s₂ = s' := congrArg Prod.fst heq
      obtain ⟨c, hcheck, hcommit⟩ := applyLinearBlock_eq_some_iff.mp hfirst
      obtain rfl := congrArg Prod.fst hcommit
      rw [List.reverse_cons, List.append_assoc]
      exact ih (apply h hcheck) hrest

theorem applyAll_invariant (apply : ∀ {s : ChainState P} {b : Block P} {c : Candidate P},
      I s → s.checkBlock b = some c → I (s.commitBlock b c).1) {fork : List (Block P)}
    {δs : List (AppliedDelta P)} (h : I s) (happly : ChainState.applyAll fork s = some (s', δs)) :
    I s' :=
  @applyAll_induct P s s' (fun s _ => I s) apply fork [] δs h happly

theorem applyLinearBlock_invariant (apply : ∀ {s : ChainState P} {b : Block P} {c : Candidate P},
      I s → s.checkBlock b = some c → I (s.commitBlock b c).1) {b : Block P} {δ : AppliedDelta P}
    (h : I s) (happly : s.applyLinearBlock b = some (s', δ)) : I s' := by
  obtain ⟨c, hcheck, hcommit⟩ := applyLinearBlock_eq_some_iff.mp happly
  obtain rfl := congrArg Prod.fst hcommit
  exact apply h hcheck

/-- What storing, applying and rolling back a block preserve, `apply_block` preserves. -/
theorem applyBlock_invariant
    (store : ∀ {s : ChainState P} {b : Block P}, I s → I (s.storeBlock b))
    (apply : ∀ {s : ChainState P} {b : Block P} {c : Candidate P},
      I s → s.checkBlock b = some c → I (s.commitBlock b c).1)
    (revert : ∀ {s : ChainState P} {tip : Block P}, I s → I (s.revertBlock tip).1)
    (h : I s) (b : Block P) : I (s.applyBlock b).1 := by
  have houtcome := outcome_applyBlock s b
  generalize s.applyBlock b = r at houtcome ⊢
  cases houtcome with
  | invalid _ => exact h
  | refused _ => exact store h
  | linear _ hlinear => exact applyLinearBlock_invariant apply (store h) hlinear
  | reorg _ _ _ hroll happly =>
      exact applyAll_invariant apply (rollbackAll_invariant revert (store h) hroll) happly

/-- It then holds after every run. -/
theorem deliver_invariant (new : I ChainState.new)
    (store : ∀ {s : ChainState P} {b : Block P}, I s → I (s.storeBlock b))
    (apply : ∀ {s : ChainState P} {b : Block P} {c : Candidate P},
      I s → s.checkBlock b = some c → I (s.commitBlock b c).1)
    (revert : ∀ {s : ChainState P} {tip : Block P}, I s → I (s.revertBlock tip).1)
    (bs : List (Block P)) : I (deliver bs) := by
  induction bs using List.reverseRecOn with
  | nil => exact new
  | append_singleton bs b ih =>
      rw [deliver_concat]
      exact applyBlock_invariant store apply revert ih b

end Invariants

end ChainState

end Haze
