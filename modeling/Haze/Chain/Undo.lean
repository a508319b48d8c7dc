import Haze.Chain.Runs
import Haze.Chain.Spending

/-!
# Rolling back right after applying

`rollback_block` has to undo what `apply_linear_block` did. It does so exactly for the registries
(`rollback_restores_registries`, for any number of blocks), and under conditions for the rest: the
coins come back when the block created none that existed already, and the validators come back when
the block *below* did not change them, because the snapshot that is read is the one of that block.
-/

namespace Haze

namespace ChainState

variable {P : Crypto} {s s' : ChainState P} {b : Block P} {c : Candidate P} {D : Block P → Prop}

/-! ## One block

Rolling back the block just applied is `revertBlock` on the committed state. It needs the height to be
positive, and then the block it finds under the tip hash is that block. -/

theorem rollbackBlock_commitBlock (hpos : b.height ≠ 0) :
    (s.commitBlock b c).1.rollbackBlock = some ((s.commitBlock b c).1.revertBlock b) := by
  have hheight : (s.commitBlock b c).1.currentHeight = b.height := rfl
  have htip : (s.commitBlock b c).1.blocks.lookup (s.commitBlock b c).1.lastBlockHash = some b :=
    Finmap.lookup_insert _
  unfold rollbackBlock
  rw [hheight, if_neg hpos, htip, Option.map_some]

/-- Above genesis, an accepted block follows the tip. -/
theorem Accepted.follows (h : Accepted s b c) (hpos : b.height ≠ 0) :
    b.height.toNat = s.currentHeight.toNat + 1 ∧ b.header.prevHash = s.lastBlockHash := by
  rcases h.connected with hconn | ⟨h0, -, -⟩
  · exact hconn
  · exact absurd h0 hpos

theorem Accepted.height_sub_one (h : Accepted s b c) (hpos : b.height ≠ 0) :
    b.height - 1 = s.currentHeight := by
  have hh := (h.follows hpos).1
  have hle : (1 : UInt64) ≤ b.height := by
    rw [UInt64.le_iff_toNat_le, UInt64.toNat_one]
    omega
  apply UInt64.toNat_inj.mp
  rw [UInt64.toNat_sub_of_le _ _ hle, UInt64.toNat_one]
  omega

theorem Accepted.currentHeight_lt (h : Accepted s b c) (hpos : b.height ≠ 0) :
    s.currentHeight < b.height := by
  rw [UInt64.lt_iff_toNat_lt]
  have := (h.follows hpos).1
  omega

theorem moves_of_pos (hpos : b.height ≠ 0) :
    b.moves = b.transactions.map Transaction.move := by
  simp only [Block.moves, Block.bodySpent, Block.transactions, List.map_cons, if_neg hpos]
  rfl

/-! ## Reachable states

The rollback theorems are about states that a node can be in: a genesis block, then blocks on top and
rollbacks in any order. -/

/-- The states reached from a genesis block of `D` by applying blocks of `D` and rolling back. -/
inductive Reachable (D : Block P → Prop) : ChainState P → Prop
  | genesis {g : Block P} {s : ChainState P} {δ : AppliedDelta P} :
      D g → g.height = 0 → ChainState.new.applyLinearBlock g = some (s, δ) → Reachable D s
  | apply {s s' : ChainState P} {b : Block P} {δ : AppliedDelta P} :
      Reachable D s → D b → s.applyLinearBlock b = some (s', δ) → Reachable D s'
  | rollback {s s' : ChainState P} {δ : RollbackDelta P} :
      Reachable D s → s.rollbackBlock = some (s', δ) → Reachable D s'

/-- Applying blocks leads from reachable states to reachable states. -/
theorem Reachable.applyAll {bs : List (Block P)} {δs : List (AppliedDelta P)} (hs : Reachable D s)
    (hbs : ∀ b ∈ bs, D b) (h : ChainState.applyAll bs s = some (s', δs)) : Reachable D s' := by
  induction bs generalizing s δs with
  | nil =>
      cases h
      exact hs
  | cons b bs ih =>
      simp only [ChainState.applyAll, Option.bind_eq_bind, Option.bind_eq_some_iff, Option.pure_def,
        Option.some.injEq] at h
      obtain ⟨⟨s₁, δ₁⟩, hfirst, ⟨s₂, δ₂⟩, hrest, heq⟩ := h
      obtain rfl : s₂ = s' := congrArg Prod.fst heq
      obtain ⟨hb, hbs⟩ := List.forall_mem_cons.mp hbs
      exact ih (hs.apply hb hfirst) hbs hrest

/-- Apply a block and roll it back at once. -/
def applyThenRollback (s : ChainState P) (b : Block P) : Option (ChainState P) := do
  let (s', _) ← s.applyLinearBlock b
  let (s'', _) ← s'.rollbackBlock
  return s''

end ChainState

namespace Devnet

open ChainState

theorem reachable_linear {D : Block crypto → Prop} {g : Block crypto} {bs : List (Block crypto)}
    (hD : ∀ b ∈ g :: bs, D b) (hg : g.height = 0)
    (h : (applyAll (g :: bs) ChainState.new).isSome = true) : Reachable D (linear (g :: bs)) := by
  obtain ⟨⟨s, δs⟩, happly⟩ := Option.isSome_iff_exists.mp h
  have hlinear : linear (g :: bs) = s := by
    simp only [linear, happly, Option.map_some, Option.getD_some]
  rw [hlinear]
  simp only [applyAll, Option.bind_eq_bind, Option.bind_eq_some_iff, Option.pure_def,
    Option.some.injEq] at happly
  obtain ⟨⟨s₁, δ₁⟩, hfirst, ⟨s₂, δ₂⟩, hrest, heq⟩ := happly
  obtain rfl : s₂ = s := congrArg Prod.fst heq
  obtain ⟨hDg, hDbs⟩ := List.forall_mem_cons.mp hD
  exact (Reachable.genesis hDg hg hfirst).applyAll hDbs hrest

end Devnet

namespace ChainState

variable {P : Crypto} {s s' : ChainState P} {b : Block P} {c : Candidate P} {D : Block P → Prop}

/-! ## Coins

A rollback removes the outputs of the block and puts its inputs back. This is the inverse of applying it
except where a block creates a coin that existed before: the coin set holds it once, so removing it on the
way back loses the older one, unless the block itself consumes it again. -/

theorem Accepted.moves_mem (h : Accepted s b c) (hpos : b.height ≠ 0) :
    ∀ t ∈ b.moves, ∀ x ∈ t.ins, x ∈ s.utxos := by
  intro t ht x hx
  rw [moves_of_pos hpos] at ht
  obtain ⟨tx, htx, rfl⟩ := List.mem_map.mp ht
  exact h.consumed_mem hpos x (List.mem_flatMap.mpr ⟨tx, htx, hx⟩)

/-- **Rollback undoes apply on the coins**, exactly when every output the block creates over an
existing coin is consumed again by its own transaction or by a later one of the block. -/
theorem rollback_utxos_iff {δ : AppliedDelta P} (hpos : b.height > 0)
    (h : s.applyLinearBlock b = some (s', δ)) :
    ∃ s'' δ', s'.rollbackBlock = some (s'', δ') ∧
      (s''.utxos = s.utxos ↔ Coins.Reabsorbed s.utxos (b.transactions.map Transaction.move)) := by
  obtain ⟨c, hacc, rfl⟩ := applyLinearBlock_eq_some h
  have hne : b.height ≠ 0 := UInt64.pos_iff_ne_zero.mp hpos
  have hback : ((s.commitBlock b c).1.revertBlock b).1.utxos =
      Coins.revertAll (Coins.applyAll s.utxos b.moves) b.moves := by
    show Coins.revertAll (Coins.applyAll s.utxos b.moves) (b.transactions.map Transaction.move) = _
    rw [moves_of_pos hne]
  refine ⟨((s.commitBlock b c).1.revertBlock b).1, _, rollbackBlock_commitBlock hne, ?_⟩
  rw [hback, Coins.revertAll_applyAll_iff (hacc.moves_mem hne), moves_of_pos hne]

end ChainState

namespace Devnet

open ChainState

/-- Register a name and pay for it. -/
def nameBlock : Block crypto :=
  mineNames (linear [genesis]) (coinbase 1 11)
    [nameOp "alice" 3 (payment (genesisTotalMinted - 1_000_000) 7 3 5)]

theorem nameBlock_accepted :
    ((linear [genesis]).applyLinearBlock nameBlock).isSome = true ∧ nameBlock.height > 0 ∧
      Coins.Reabsorbed (linear [genesis]).utxos (nameBlock.transactions.map Transaction.move) ∧
      ((linear [genesis]).validatorSnapshots.lookup (linear [genesis]).currentHeight).getD [] =
        (linear [genesis]).activeValidators := by
  decide +kernel

theorem nameBlock_utxos_restored :
    ∃ s' s'' δ δ', (linear [genesis]).applyLinearBlock nameBlock = some (s', δ) ∧
      s'.rollbackBlock = some (s'', δ') ∧ s''.utxos = (linear [genesis]).utxos := by
  obtain ⟨happly, hpos, hreabsorbed, -⟩ := nameBlock_accepted
  obtain ⟨⟨s', δ⟩, h⟩ := Option.isSome_iff_exists.mp happly
  obtain ⟨s'', δ', hroll, hiff⟩ := rollback_utxos_iff hpos h
  exact ⟨s', s'', δ, δ', h, hroll, hiff.mpr hreabsorbed⟩

/-- Two blocks that mint the same reward to the same blinding factor: the second output is the
first. -/
def mintedTwice : Block crypto × Block crypto :=
  let first := mine (linear [genesis]) (coinbase 1 11)
  (first, mine (linear [genesis, first]) (coinbase 2 11))

theorem mintedTwice_loses_coin :
    Reachable (fun _ => True) (linear [genesis, mintedTwice.1]) ∧ mintedTwice.2.height > 0 ∧
      ∃ s'', (linear [genesis, mintedTwice.1]).applyThenRollback mintedTwice.2 = some s'' ∧
        s''.utxos ≠ (linear [genesis, mintedTwice.1]).utxos := by
  have hrun : (applyAll [genesis, mintedTwice.1] ChainState.new).isSome = true ∧
      mintedTwice.2.height > 0 ∧
      ((linear [genesis, mintedTwice.1]).applyThenRollback mintedTwice.2).map
        (fun s'' => decide (s''.utxos = (linear [genesis, mintedTwice.1]).utxos)) = some false := by
    decide +kernel
  obtain ⟨hreach, hpos, hback⟩ := hrun
  obtain ⟨s'', happly, hne⟩ := Option.map_eq_some_iff.mp hback
  exact ⟨reachable_linear (by simp) rfl hreach, hpos, s'', happly, of_decide_eq_false hne⟩

end Devnet

namespace ChainState

variable {P : Crypto} {s s' : ChainState P} {b : Block P} {c : Candidate P} {D : Block P → Prop}

/-! ## Validators

The validator list is not taken back entry by entry. The list before the block is kept under the height of
the block, and a rollback looks for it under the height it goes back to; it comes back exactly when these
two lists are the same. -/

/-- **Rollback undoes apply on the validators**, exactly when the snapshot kept at the current height
is the current set: the tip block left the validators alone. -/
theorem rollback_validators_iff {δ : AppliedDelta P} (h : s.applyLinearBlock b = some (s', δ)) :
    (b.height > 0 → s'.rollbackBlock.isSome = true) ∧
      ∀ s'' δ', s'.rollbackBlock = some (s'', δ') →
        (s''.activeValidators = s.activeValidators ↔
          (s.validatorSnapshots.lookup s.currentHeight).getD [] = s.activeValidators) := by
  obtain ⟨c, hacc, rfl⟩ := applyLinearBlock_eq_some h
  refine ⟨?_, ?_⟩
  · intro hpos
    rw [rollbackBlock_commitBlock (UInt64.pos_iff_ne_zero.mp hpos), Option.isSome_some]
  · intro s'' δ' hroll
    have hne : b.height ≠ 0 := by
      intro h0
      have hheight : (s.commitBlock b c).1.currentHeight = 0 := h0
      rw [rollbackBlock, if_pos hheight] at hroll
      cases hroll
    rw [rollbackBlock_commitBlock hne] at hroll
    obtain rfl : ((s.commitBlock b c).1.revertBlock b).1 = s'' :=
      congrArg Prod.fst (Option.some.inj hroll)
    -- the snapshot written by the block itself sits one height above the one that is read
    have hread : ((s.commitBlock b c).1.revertBlock b).1.activeValidators =
        ((s.validatorSnapshots.insert b.height s.activeValidators).lookup (b.height - 1)).getD [] :=
      rfl
    have hlt := hacc.currentHeight_lt hne
    rw [hread, hacc.height_sub_one hne, Finmap.lookup_insert_of_ne _ (UInt64.ne_of_lt hlt)]

end ChainState

namespace Devnet

open ChainState

theorem nameBlock_validators_restored :
    ∃ s' s'' δ δ', (linear [genesis]).applyLinearBlock nameBlock = some (s', δ) ∧
      s'.rollbackBlock = some (s'', δ') ∧
      s''.activeValidators = (linear [genesis]).activeValidators := by
  obtain ⟨happly, hpos, -, hsnapshot⟩ := nameBlock_accepted
  obtain ⟨⟨s', δ⟩, h⟩ := Option.isSome_iff_exists.mp happly
  obtain ⟨hsome, hiff⟩ := rollback_validators_iff h
  obtain ⟨⟨s'', δ'⟩, hroll⟩ := Option.isSome_iff_exists.mp (hsome hpos)
  exact ⟨s', s'', δ, δ', h, hroll, (hiff s'' δ' hroll).mpr hsnapshot⟩

/-- A block that registers the bootstrap stake, and an ordinary one after it. -/
def stakedThenPlain : Block crypto × Block crypto :=
  let first := mineStakes (linear [genesis]) (coinbase 1 11) [stakeOp]
  (first, mine (linear [genesis, first]) (coinbase 2 12))

theorem stakedThenPlain_forgets_validator :
    Reachable (fun _ => True) (linear [genesis, stakedThenPlain.1]) ∧
      ∃ s'', (linear [genesis, stakedThenPlain.1]).applyThenRollback stakedThenPlain.2 = some s'' ∧
        s''.activeValidators ≠ (linear [genesis, stakedThenPlain.1]).activeValidators := by
  have hrun : (applyAll [genesis, stakedThenPlain.1] ChainState.new).isSome = true ∧
      ((linear [genesis, stakedThenPlain.1]).applyThenRollback stakedThenPlain.2).map
        (fun s'' => decide (s''.activeValidators =
          (linear [genesis, stakedThenPlain.1]).activeValidators)) = some false := by
    decide +kernel
  obtain ⟨hreach, hback⟩ := hrun
  obtain ⟨s'', happly, hne⟩ := Option.map_eq_some_iff.mp hback
  exact ⟨reachable_linear (by simp) rfl hreach, s'', happly, of_decide_eq_false hne⟩

end Devnet

namespace ChainState

variable {P : Crypto} {s s' : ChainState P} {b : Block P} {c : Candidate P} {D : Block P → Prop}

/-! ## What every reachable state satisfies

Rolling back the registries reads the undo record kept for the height of the tip. A record left over from an
earlier block at that height would be read in its place when the new block keeps none, so reachable states
must hold no record above the tip. Mint counts must be positive, because a count that falls to zero is
removed. -/

/-- No undo record is kept above a height. -/
def NoneAbove {V : Type} (height : UInt64) (snapshots : KeyedMap UInt64 V) : Prop :=
  ∀ h, height < h → snapshots.lookup h = none

theorem NoneAbove.saveSnapshot {V : Type} {n m : UInt64}
    {snapshots : KeyedMap UInt64 (List (String × V))} (h : NoneAbove n snapshots) (hnm : n ≤ m)
    (replaced : List (String × V)) : NoneAbove m (ChainState.saveSnapshot snapshots m replaced) := by
  intro k hk
  have hnone : snapshots.lookup k = none := h k (UInt64.lt_of_le_of_lt hnm hk)
  unfold ChainState.saveSnapshot
  split
  · exact hnone
  · rw [Finmap.lookup_insert_of_ne _ (UInt64.ne_of_lt hk).symm, hnone]

theorem NoneAbove.erase {V : Type} {n : UInt64} {snapshots : KeyedMap UInt64 V}
    (h : NoneAbove n snapshots) (hn : n ≠ 0) : NoneAbove (n - 1) (snapshots.erase n) := by
  intro k hk
  by_cases hkn : k = n
  · subst hkn
    exact Finmap.lookup_erase _ _
  · rw [Finmap.lookup_erase_ne hkn]
    apply h
    have hn' : n.toNat ≠ 0 := fun h0 => hn (UInt64.toNat_inj.mp h0)
    have hkn' : k.toNat ≠ n.toNat := fun h0 => hkn (UInt64.toNat_inj.mp h0)
    have hle : (1 : UInt64) ≤ n := by
      rw [UInt64.le_iff_toNat_le, UInt64.toNat_one]
      omega
    rw [UInt64.lt_iff_toNat_lt, UInt64.toNat_sub_of_le _ _ hle, UInt64.toNat_one] at hk
    rw [UInt64.lt_iff_toNat_lt]
    omega

/-- What a rollback of the registries relies on. -/
structure Ready (D : Block P → Prop) (s : ChainState P) : Prop where
  keyed : Links.Keyed (blockLinks P) D s.blocks
  names : NoneAbove s.currentHeight s.transferSnapshots
  assets : NoneAbove s.currentHeight s.assetTransferSnapshots
  positive : Counter.Positive s.collectionMintCounts

/-- What every reachable state satisfies. -/
structure Sound (D : Block P → Prop) (s : ChainState P) : Prop where
  /-- The chain goes down to a block of height 0. -/
  grounded : ∃ chain, Tracks D s chain ∧ ∃ g ∈ chain, g.height = 0
  names : NoneAbove s.currentHeight s.transferSnapshots
  assets : NoneAbove s.currentHeight s.assetTransferSnapshots
  positive : Counter.Positive s.collectionMintCounts

theorem Sound.ready (hs : Sound D s) : Ready D s := by
  obtain ⟨chain, htracks, -⟩ := hs.grounded
  exact ⟨htracks.keyed, hs.names, hs.assets, hs.positive⟩

theorem Accepted.height_ne_zero (h : Accepted s b c) (hD : DistinctHashes D) (hs : Sound D s) :
    b.height ≠ 0 := by
  intro h0
  obtain ⟨chain, htracks, g, hg, -⟩ := hs.grounded
  rw [h.chain_eq_nil hD htracks h0] at hg
  cases hg

/-- Committing the mint counts makes them the candidate's. -/
theorem Accepted.collectionMintCounts_eq (h : Accepted s b c) :
    (s.commitBlock b c).1.collectionMintCounts = c.counts :=
  KeyedMap.insertFrom_eq h.counts.present h.counts.frame

theorem Accepted.currentHeight_le (h : Accepted s b c) : s.currentHeight ≤ b.height := by
  rw [UInt64.le_iff_toNat_le]
  rcases h.connected with ⟨hh, -⟩ | ⟨-, h0, -⟩
  · omega
  · rw [h0]
    exact Nat.zero_le _

/-- The part of soundness that applying a block keeps on any state. -/
theorem Accepted.snapshots (h : Accepted s b c) (hnames : NoneAbove s.currentHeight s.transferSnapshots)
    (hassets : NoneAbove s.currentHeight s.assetTransferSnapshots)
    (hpos : Counter.Positive s.collectionMintCounts) :
    NoneAbove b.height (s.commitBlock b c).1.transferSnapshots ∧
      NoneAbove b.height (s.commitBlock b c).1.assetTransferSnapshots ∧
      Counter.Positive (s.commitBlock b c).1.collectionMintCounts := by
  refine ⟨hnames.saveSnapshot h.currentHeight_le _, hassets.saveSnapshot h.currentHeight_le _, ?_⟩
  rw [h.collectionMintCounts_eq]
  exact h.counts.positive hpos

theorem Ready.commitBlock (hs : Ready D s) (hb : D b) (h : Accepted s b c) :
    Ready D (s.commitBlock b c).1 := by
  obtain ⟨hnames, hassets, hpos⟩ := h.snapshots hs.names hs.assets hs.positive
  exact ⟨hs.keyed.insert hb, hnames, hassets, hpos⟩

theorem Ready.revertBlock (hs : Ready D s) (hpos : s.currentHeight ≠ 0) (tip : Block P) :
    Ready D (s.revertBlock tip).1 :=
  ⟨hs.keyed, hs.names.erase hpos, hs.assets.erase hpos, hs.positive.foldl_unbump _⟩

theorem Sound.commitBlock (hD : DistinctHashes D) (hs : Sound D s) (hb : D b)
    (h : Accepted s b c) : Sound D (s.commitBlock b c).1 := by
  obtain ⟨chain, htracks, g, hg, hg0⟩ := hs.grounded
  obtain ⟨-, hnames, hassets, hpos⟩ := hs.ready.commitBlock hb h
  exact ⟨⟨b :: chain, htracks.commitBlock hD hb h, g, List.mem_cons_of_mem _ hg, hg0⟩, hnames, hassets,
    hpos⟩

theorem Sound.rollbackBlock {δ : RollbackDelta P} (hs : Sound D s)
    (hroll : s.rollbackBlock = some (s', δ)) : Sound D s' := by
  obtain ⟨chain, htracks, g, hg, hg0⟩ := hs.grounded
  obtain ⟨tip, rest, rfl, hne, hheight, rfl, hrest⟩ := htracks.rollbackBlock hroll
  have hn : s.currentHeight ≠ 0 := hheight ▸ hne
  obtain ⟨-, hnames, hassets, hpositive⟩ := hs.ready.revertBlock hn tip
  refine ⟨⟨rest, hrest, g, ?_, hg0⟩, hnames, hassets, hpositive⟩
  -- the tip is not of height 0, so the bottom block is further down
  rcases List.mem_cons.mp hg with rfl | hg
  · exact absurd hg0 hne
  · exact hg

theorem Reachable.sound (hD : DistinctHashes D) (h : Reachable D s) : Sound D s := by
  induction h with
  | @genesis g s δ hg hg0 happly =>
      obtain ⟨c, hacc, rfl⟩ := applyLinearBlock_eq_some happly
      have hempty : ∀ {V : Type} {n : UInt64}, NoneAbove n (∅ : KeyedMap UInt64 V) := by
        intro V n k _
        rfl
      obtain ⟨hnames, hassets, hpos⟩ := hacc.snapshots hempty hempty Counter.Positive.empty
      exact ⟨⟨[g], Tracks.new.commitBlock hD hg hacc, g, List.mem_singleton_self g, hg0⟩, hnames,
        hassets, hpos⟩
  | apply _ hb happly ih =>
      obtain ⟨c, hacc, rfl⟩ := applyLinearBlock_eq_some happly
      exact ih.commitBlock hD hb hacc
  | rollback _ hroll ih => exact ih.rollbackBlock hroll

/-! ## Registries

Several rollbacks in a row read more than the registries: the heights, the tip and the undo records of lower
blocks must be those of the earlier state as well. `Restores` lists all of it, and one rollback takes such a
state to such a state. -/

/-- `t` holds the registries of `s` and everything that a rollback of them reads. The database may
have grown. -/
structure Restores (t s : ChainState P) : Prop where
  nameRegistry : t.nameRegistry = s.nameRegistry
  assetRegistry : t.assetRegistry = s.assetRegistry
  collectionRegistry : t.collectionRegistry = s.collectionRegistry
  collectionMintCounts : t.collectionMintCounts = s.collectionMintCounts
  currentHeight : t.currentHeight = s.currentHeight
  lastBlockHash : t.lastBlockHash = s.lastBlockHash
  transferSnapshots : t.transferSnapshots = s.transferSnapshots
  assetTransferSnapshots : t.assetTransferSnapshots = s.assetTransferSnapshots
  blocks : ∀ hash b, s.blocks.lookup hash = some b → t.blocks.lookup hash = some b

theorem Restores.refl (s : ChainState P) : Restores s s :=
  ⟨rfl, rfl, rfl, rfl, rfl, rfl, rfl, rfl, fun _ _ h => h⟩

theorem Restores.trans {t r : ChainState P} (h : Restores t s) (h' : Restores s r) : Restores t r where
  nameRegistry := h.nameRegistry.trans h'.nameRegistry
  assetRegistry := h.assetRegistry.trans h'.assetRegistry
  collectionRegistry := h.collectionRegistry.trans h'.collectionRegistry
  collectionMintCounts := h.collectionMintCounts.trans h'.collectionMintCounts
  currentHeight := h.currentHeight.trans h'.currentHeight
  lastBlockHash := h.lastBlockHash.trans h'.lastBlockHash
  transferSnapshots := h.transferSnapshots.trans h'.transferSnapshots
  assetTransferSnapshots := h.assetTransferSnapshots.trans h'.assetTransferSnapshots
  blocks hash b hb := h.blocks hash b (h'.blocks hash b hb)

section Snapshots

variable {V : Type} {snapshots : KeyedMap UInt64 (List (String × V))} {height : UInt64}
  {replaced : List (String × V)}

-- the record read at the tip is the one the tip block kept, also when it kept none
theorem tipSnapshot_saveSnapshot (h : snapshots.lookup height = none) :
    tipSnapshot (saveSnapshot snapshots height replaced) height = replaced := by
  unfold tipSnapshot saveSnapshot
  split
  next hempty =>
    rw [h]
    exact (List.isEmpty_iff.mp hempty).symm
  next => rw [Finmap.lookup_insert, Option.getD_some]

theorem erase_saveSnapshot (h : snapshots.lookup height = none) :
    (saveSnapshot snapshots height replaced).erase height = snapshots := by
  apply Finmap.ext_lookup
  intro k
  by_cases hk : k = height
  · rw [hk, Finmap.lookup_erase, h]
  · rw [Finmap.lookup_erase_ne hk]
    unfold saveSnapshot
    split
    · rfl
    · rw [Finmap.lookup_insert_of_ne _ hk]

end Snapshots

/-- Taking back a block above genesis, from any state that holds what the block left. -/
theorem Restores.revertBlock {t : ChainState P} (hD : DistinctHashes D) (hs : Ready D s) (hb : D b)
    (hpos : b.height ≠ 0) (hacc : Accepted s b c) (ht : Restores t (s.commitBlock b c).1) :
    Restores (t.revertBlock b).1 s := by
  have hlt := hacc.currentHeight_lt hpos
  have hheight : t.currentHeight = b.height := ht.currentHeight
  have hnames := hs.names b.height hlt
  have hassets := hs.assets b.height hlt
  refine
    { nameRegistry := ?_
      assetRegistry := ?_
      collectionRegistry := ?_
      collectionMintCounts := ?_
      currentHeight := ?_
      lastBlockHash := (hacc.follows hpos).2
      transferSnapshots := ?_
      assetTransferSnapshots := ?_
      blocks := ?_ }
  -- names registered by the block go, names it transferred get their old record back
  · show KeyedMap.insertAll (KeyedMap.eraseAll t.nameRegistry _)
      (tipSnapshot t.transferSnapshots t.currentHeight) = _
    rw [ht.nameRegistry, ht.transferSnapshots, hheight]
    show KeyedMap.insertAll _ (tipSnapshot (saveSnapshot s.transferSnapshots b.height _) _) = _
    rw [tipSnapshot_saveSnapshot hnames]
    exact KeyedMap.undo_edit c.registry s.nameRegistry hacc.names.absent hacc.names.nodup
      hacc.names.disjoint
  -- the same for assets
  · show KeyedMap.insertAll (KeyedMap.eraseAll t.assetRegistry _)
      (tipSnapshot t.assetTransferSnapshots t.currentHeight) = _
    rw [ht.assetRegistry, ht.assetTransferSnapshots, hheight]
    show KeyedMap.insertAll _ (tipSnapshot (saveSnapshot s.assetTransferSnapshots b.height _) _) = _
    rw [tipSnapshot_saveSnapshot hassets]
    exact KeyedMap.undo_edit c.assets s.assetRegistry hacc.assets.absent hacc.assets.nodup
      hacc.assets.disjoint
  -- collections are only ever added
  · show KeyedMap.eraseAll t.collectionRegistry _ = _
    rw [ht.collectionRegistry]
    exact KeyedMap.undo_edit c.collections s.collectionRegistry hacc.collections List.nodup_nil
      (by simp)
  -- the counts go down in the order in which they went up
  · show (b.mintOps.filterMap MintAssetOp.countKey).foldl Counter.unbump t.collectionMintCounts = _
    rw [ht.collectionMintCounts, hacc.collectionMintCounts_eq, ← hacc.mints]
    exact hacc.counts.foldl_unbump hs.positive
  · show t.currentHeight - 1 = _
    rw [hheight, hacc.height_sub_one hpos]
  · show t.transferSnapshots.erase t.currentHeight = _
    rw [ht.transferSnapshots, hheight]
    exact erase_saveSnapshot hnames
  · show t.assetTransferSnapshots.erase t.currentHeight = _
    rw [ht.assetTransferSnapshots, hheight]
    exact erase_saveSnapshot hassets
  -- the database keeps the block that was taken back
  · intro hash b' hb'
    exact ht.blocks hash b' (hs.keyed.lookup_insert hD hb hb')

/-- One rollback takes back one block. -/
theorem Restores.rollbackBlock {t : ChainState P} (hD : DistinctHashes D) (hs : Sound D s) (hb : D b)
    (hacc : Accepted s b c) (ht : Restores t (s.commitBlock b c).1) :
    ∃ t' δ, t.rollbackBlock = some (t', δ) ∧ Restores t' s := by
  have hpos : b.height ≠ 0 := hacc.height_ne_zero hD hs
  have hheight : t.currentHeight = b.height := ht.currentHeight
  have htip : t.blocks.lookup t.lastBlockHash = some b := by
    rw [ht.lastBlockHash]
    exact ht.blocks _ _ (Finmap.lookup_insert _)
  have hroll : t.rollbackBlock = some (t.revertBlock b) := by
    unfold ChainState.rollbackBlock
    rw [hheight, if_neg hpos, htip, Option.map_some]
  exact ⟨(t.revertBlock b).1, _, hroll, ht.revertBlock hD hs.ready hb hpos hacc⟩

/-- `n` calls of `rollback_block`, all of which have to succeed. -/
def rollbackTimes : ℕ → ChainState P → Option (ChainState P)
  | 0, s => some s
  | n + 1, s => do
      let s₁ ← rollbackTimes n s
      let (s₂, _) ← s₁.rollbackBlock
      return s₂

theorem restores_of_applyAll (hD : DistinctHashes D) {bs : List (Block P)}
    {δs : List (AppliedDelta P)} (hs : Sound D s) (hbs : ∀ b ∈ bs, D b)
    (h : applyAll bs s = some (s', δs)) :
    ∃ t, rollbackTimes bs.length s' = some t ∧ Restores t s := by
  induction bs generalizing s δs with
  | nil =>
      cases h
      exact ⟨_, rfl, Restores.refl _⟩
  | cons b bs ih =>
      simp only [applyAll, Option.bind_eq_bind, Option.bind_eq_some_iff, Option.pure_def,
        Option.some.injEq] at h
      obtain ⟨⟨s₁, δ₁⟩, hfirst, ⟨s₂, δ₂⟩, hrest, heq⟩ := h
      obtain rfl : s₂ = s' := congrArg Prod.fst heq
      obtain ⟨c, hacc, rfl⟩ := applyLinearBlock_eq_some hfirst
      obtain ⟨hb, hbs⟩ := List.forall_mem_cons.mp hbs
      obtain ⟨t, ht, hrestored⟩ := ih (hs.commitBlock hD hb hacc) hbs hrest
      obtain ⟨t', δ', hroll, hrestored'⟩ := hrestored.rollbackBlock hD hs hb hacc
      refine ⟨t', ?_, hrestored'⟩
      simp only [List.length_cons, rollbackTimes, Option.bind_eq_bind, ht, Option.bind_some, hroll,
        Option.pure_def]

/-- **Rollback undoes apply on the registries.** From a reachable state, any number of accepted blocks
can be rolled back again, and the registries, the mint counts and the tip are what they were. -/
theorem rollback_restores_registries (hD : DistinctHashes D) (hs : Reachable D s)
    {bs : List (Block P)} {δs : List (AppliedDelta P)} (hbs : ∀ b ∈ bs, D b)
    (h : applyAll bs s = some (s', δs)) :
    ∃ t, rollbackTimes bs.length s' = some t ∧
      t.nameRegistry = s.nameRegistry ∧ t.assetRegistry = s.assetRegistry ∧
      t.collectionRegistry = s.collectionRegistry ∧
      t.collectionMintCounts = s.collectionMintCounts ∧
      t.currentHeight = s.currentHeight ∧ t.lastBlockHash = s.lastBlockHash := by
  obtain ⟨t, ht, hr⟩ := restores_of_applyAll hD (hs.sound hD) hbs h
  exact ⟨t, ht, hr.nameRegistry, hr.assetRegistry, hr.collectionRegistry, hr.collectionMintCounts,
    hr.currentHeight, hr.lastBlockHash⟩

end ChainState

namespace Devnet

open ChainState

/-- The name changes hands in the next block. -/
def transferBlock : Block crypto :=
  mineTransfer (linear [genesis, nameBlock]) (coinbase 2 12) (transferOp "alice" 3 4)

theorem nameBlock_transferBlock_undone :
    ∃ s' δs t, applyAll [nameBlock, transferBlock] (linear [genesis]) = some (s', δs) ∧
      rollbackTimes 2 s' = some t ∧ t.nameRegistry = (linear [genesis]).nameRegistry := by
  have hrun : (zeroHash :: [genesis, nameBlock, transferBlock].map Block.hash).Nodup ∧
      (applyAll [genesis] ChainState.new).isSome = true ∧
      (applyAll [nameBlock, transferBlock] (linear [genesis])).isSome = true := by
    decide +kernel
  obtain ⟨hnodup, hreach, happly⟩ := hrun
  have hD := distinctHashes_of_nodup hnodup
  have hs : Reachable (· ∈ [genesis, nameBlock, transferBlock]) (linear [genesis]) :=
    reachable_linear (by simp) rfl hreach
  obtain ⟨⟨s', δs⟩, h⟩ := Option.isSome_iff_exists.mp happly
  obtain ⟨t, ht, hnames, -⟩ := rollback_restores_registries hD hs (by simp) h
  exact ⟨s', δs, t, h, ht, hnames⟩

end Devnet

end Haze
