import Haze.Chain.Pruning
import Haze.Storage.Registries

/-!
# Stopping between two writes

`persist_applied` makes six writes, to five trees, and `persist_rollback` four. A write is atomic, the
sequence is not, and nothing tells a half-written delta from a whole one. `load_state` trusts every
tree: what it returns after a stop is put together from both sides of the delta. The coins go over
first, then the kernels, the height, and last the tip, together with the registries, which are read off
the blocks below the tip (`crash_mixes`).

That the registries stay whole needs that the block written first does not take the place of a block
below the old tip. Two blocks with one header hash have one height, unless SHA-256 has a collision
(`DistinctHeaders`), and the new block is above the others (`Rests.lookup_insert`).
-/

namespace Haze

variable {P : Crypto} {H : BlockHeader P → Prop}

/-! ## The writes

The writes as lists, so that a stop is a prefix of the list. The order is that of the source. -/

namespace Storage

variable (d : Storage P)

/-- The writes of `persist_applied`, in order. -/
def appliedWrites (delta : AppliedDelta P) : List (Storage P → Storage P) :=
  [fun d => { d with blocks := d.blocks.insert delta.tipHash delta.block },
    fun d => { d with
      utxos := KeyedMap.insertAll
        (KeyedMap.eraseAll d.utxos (delta.spentCommitments.map commitmentKey))
        (delta.newOutputs.map fun o => (commitmentKey o.commitment, some o)) },
    fun d => { d with
      kernels := KeyedMap.insertAll d.kernels
        (delta.newKernels.map fun k => (commitmentKey k.excess, k)) },
    fun d => { d with
      validatorSnapshots :=
        d.validatorSnapshots.insert delta.validatorSnapshot.1 delta.validatorSnapshot.2 },
    fun d => { d with height := some delta.height },
    fun d => { d with tip := some delta.tipHash }]

/-- The writes of `persist_rollback`, in order. -/
def rollbackWrites (delta : RollbackDelta P) : List (Storage P → Storage P) :=
  [fun d => { d with
      utxos := KeyedMap.insertAll
        (KeyedMap.eraseAll d.utxos (delta.unConsumedOutputs.map commitmentKey))
        (delta.restoredInputs.map fun c => (commitmentKey c, none)) },
    fun d => { d with
      kernels := KeyedMap.eraseAll d.kernels (delta.removedKernelExcesses.map commitmentKey) },
    fun d => { d with height := some delta.newHeight },
    fun d => { d with tip := some delta.newTip }]

/-- The disk when the process stops after `n` writes. -/
def stopped (writes : List (Storage P → Storage P)) (n : ℕ) : Storage P :=
  (writes.take n).foldl (fun d write => write d) d

theorem stopped_all {writes : List (Storage P → Storage P)} {n : ℕ} (h : writes.length ≤ n) :
    d.stopped writes n = writes.foldl (fun d write => write d) d := by
  rw [stopped, List.take_of_length_le h]

/-- All writes together are `persist_applied`. -/
theorem persistApplied_eq (delta : AppliedDelta P) :
    (appliedWrites delta).foldl (fun d write => write d) d = d.persistApplied delta := rfl

theorem persistRollback_eq (delta : RollbackDelta P) :
    (rollbackWrites delta).foldl (fun d write => write d) d = d.persistRollback delta := rfl

/-- `persist_compaction`: the touched blocks and their counts are written from memory, and the validator
snapshots below the horizon are dropped. -/
def persistCompaction (chain : ChainState P) (touched : List Bytes32) : Storage P :=
  let horizonHeight := saturatingSub chain.currentHeight cutThroughHorizon
  { d with
    blocks := touched.foldl (fun m hash =>
      match chain.blocks.lookup hash with
      | some b => m.insert hash b
      | none => m) d.blocks
    pruneMeta := touched.foldl (fun m hash =>
      match chain.pruneMeta.lookup hash with
      | some pruned => m.insert hash pruned
      | none => m) d.pruneMeta
    validatorSnapshots := d.validatorSnapshots.retain fun h => decide (h ≥ horizonHeight) }

/-- The blocks that `load_state` rebuilds the registries from. -/
def chain : List (Block P) :=
  activeChainBlocks d.blocks (d.blocks.keys.card + 1) (d.tip.getD zeroHash)

end Storage

/-! ## What is loaded

What is loaded after a stop is described part by part. The registries are no part of their own: they come
from the blocks, and which blocks are read depends on the tip, which is written last. -/

namespace ChainState

open Storage

variable {s : ChainState P} {d : Storage P} {b : Block P} {c : Candidate P}

/-- The registries of two states are the same, the mint counts included. -/
structure RegistriesEq (s t : ChainState P) : Prop where
  names : s.nameRegistry = t.nameRegistry
  assets : s.assetRegistry = t.assetRegistry
  collections : s.collectionRegistry = t.collectionRegistry
  counts : s.collectionMintCounts = t.collectionMintCounts

theorem registriesEq_of_chain_eq {d d' : Storage P} (h : d.chain = d'.chain) :
    RegistriesEq d.loadState d'.loadState := by
  unfold Storage.chain at h
  constructor
  · simp only [loadState, h]
  · simp only [loadState, h]
  · simp only [loadState, h]
  · simp only [loadState, h]

/-- A state put together from two: each part is the one before until enough writes have been made, and
the one after from then on. -/
structure Mixed (before after found : ChainState P) (n coins kernels height tip : ℕ) : Prop where
  utxos : found.utxos = if n < coins then before.utxos else after.utxos
  kernels : found.kernels = if n < kernels then before.kernels else after.kernels
  currentHeight : found.currentHeight =
    if n < height then before.currentHeight else after.currentHeight
  lastBlockHash : found.lastBlockHash = if n < tip then before.lastBlockHash else after.lastBlockHash
  registries : RegistriesEq found (if n < tip then before else after)

/-- A stop in `persist_applied`, when the block that is written leaves the chain on disk alone. -/
theorem mixed_applied (delta : AppliedDelta P) (n : ℕ)
    (hchain : ∀ d' : Storage P, d'.blocks = d.blocks.insert delta.tipHash delta.block →
      d'.tip = d.tip → d'.chain = d.chain) :
    Mixed d.loadState (d.persistApplied delta).loadState (d.stopped (appliedWrites delta) n).loadState
      n 2 3 5 6 := by
  match n with
  | 0 => exact ⟨rfl, rfl, rfl, rfl, rfl, rfl, rfl, rfl⟩
  | 1 | 2 | 3 | 4 | 5 =>
      exact ⟨rfl, rfl, rfl, rfl, registriesEq_of_chain_eq (hchain _ rfl rfl)⟩
  | n + 6 =>
      have hall : d.stopped (appliedWrites delta) (n + 6) = d.persistApplied delta :=
        (d.stopped_all (by simp [appliedWrites])).trans (d.persistApplied_eq delta)
      rw [hall]
      refine ⟨?_, ?_, ?_, ?_, ?_⟩
      · rw [if_neg (by omega)]
      · rw [if_neg (by omega)]
      · rw [if_neg (by omega)]
      · rw [if_neg (by omega)]
      · rw [if_neg (by omega)]
        exact ⟨rfl, rfl, rfl, rfl⟩

/-- A stop in `persist_rollback`, which writes no block. -/
theorem mixed_rollback (delta : RollbackDelta P) (n : ℕ) :
    Mixed d.loadState (d.persistRollback delta).loadState (d.stopped (rollbackWrites delta) n).loadState
      n 1 2 3 4 := by
  match n with
  | 0 | 1 | 2 | 3 => exact ⟨rfl, rfl, rfl, rfl, rfl, rfl, rfl, rfl⟩
  | n + 4 =>
      have hall : d.stopped (rollbackWrites delta) (n + 4) = d.persistRollback delta :=
        (d.stopped_all (by simp [rollbackWrites])).trans (d.persistRollback_eq delta)
      rw [hall]
      refine ⟨?_, ?_, ?_, ?_, ?_⟩
      · rw [if_neg (by omega)]
      · rw [if_neg (by omega)]
      · rw [if_neg (by omega)]
      · rw [if_neg (by omega)]
      · rw [if_neg (by omega)]
        exact ⟨rfl, rfl, rfl, rfl⟩

/-! ## Reachable states

The states between two deltas, with everything that moves memory and disk in between: blocks that are only
stored, pruning, writing pruned blocks back, and a start. -/

/-- A node with its disk, between two deltas: blocks with headers of `H` enter the database in memory,
each block applied or rolled back is persisted, and now and then the node prunes old blocks or is
started again. The pruned blocks are written under another lock than they are pruned under. -/
inductive Persisting (H : BlockHeader P → Prop) : ChainState P → Storage P → Prop
  | fresh : Persisting H ChainState.new Storage.empty
  | store {s : ChainState P} {d : Storage P} {b : Block P} :
      Persisting H s d → H b.header → Persisting H (s.storeBlock b) d
  | apply {s s' : ChainState P} {d : Storage P} {b : Block P} {δ : AppliedDelta P} :
      Persisting H s d → H b.header → s.applyLinearBlock b = some (s', δ) →
        Persisting H s' (d.persistApplied δ)
  | rollback {s s' : ChainState P} {d : Storage P} {δ : RollbackDelta P} :
      Persisting H s d → s.rollbackBlock = some (s', δ) → Persisting H s' (d.persistRollback δ)
  | compact {s : ChainState P} {d : Storage P} (order : List Bytes32) (horizon : UInt64) :
      Persisting H s d → Persisting H (s.compact order horizon).1 d
  | persistCompaction {s : ChainState P} {d : Storage P} (touched : List Bytes32) :
      Persisting H s d → Persisting H s (d.persistCompaction s touched)
  | restart {s : ChainState P} {d : Storage P} : Persisting H s d → Persisting H d.loadState d

/-- Every run of deliveries leads to such a node. -/
theorem persisting_persisted {bs : List (Block P)} (hH : ∀ b ∈ bs, H b.header) :
    Persisting H (deliver bs) (persisted bs) := by
  apply persist_induct (D := fun b => H b.header) (Q := fun _ _ => True) (R := fun _ => True)
    (J := Persisting H) hH
  · exact fun _ _ _ _ => deliveryMoves_true
  · exact .fresh
  · intro s d b hb h
    exact h.store hb
  · intro s d b c hb h hcheck _
    exact h.apply hb (applyLinearBlock_eq_some_iff.mpr ⟨c, hcheck, rfl⟩)
  · intro s d tip hpos htip h _
    refine h.rollback ?_
    rw [rollbackBlock, if_neg hpos, htip, Option.map_some]

/-- The disk follows the memory, and has a chain below its tip. -/
structure Follows (H : BlockHeader P → Prop) (s : ChainState P) (d : Storage P)
    (chain : List (Block P)) : Prop where
  memory : Headed H s.blocks
  disk : Headed H d.blocks
  height : d.height.getD 0 = s.currentHeight
  tip : d.tip.getD zeroHash = s.lastBlockHash
  linked : (blockLinks P).Linked d.blocks s.lastBlockHash s.currentHeight.toNat chain

variable {chain : List (Block P)}

theorem Follows.rests (h : Follows H s d chain) :
    Rests H d.blocks s.lastBlockHash s.currentHeight chain :=
  ⟨h.disk, h.linked⟩

/-- Writing the block leaves the chain on disk alone. -/
theorem Follows.chain_insert (hH : DistinctHeaders H) (h : Follows H s d chain) (hb : H b.header)
    (hacc : Accepted s b c) (d' : Storage P) (hblocks : d'.blocks = d.blocks.insert b.hash b)
    (htip : d'.tip = d.tip) : d'.chain = d.chain := by
  have hold : d.chain = chain := by
    rw [Storage.chain, h.tip]
    exact activeChainBlocks_eq (h.disk.lookup_root hH) h.linked
      (Nat.lt_succ_of_le (h.linked.length_le h.disk))
  have hkeyed : Headed H d'.blocks := by
    rw [hblocks]
    exact Links.Keyed.insert h.disk hb
  have hlinked : (blockLinks P).Linked d'.blocks s.lastBlockHash s.currentHeight.toNat chain := by
    rw [hblocks]
    exact h.linked.transfer h.disk (h.rests.lookup_insert hH hb hacc)
  rw [hold, Storage.chain, htip, h.tip]
  exact activeChainBlocks_eq (hkeyed.lookup_root hH) hlinked
    (Nat.lt_succ_of_le (hlinked.length_le hkeyed))

theorem Follows.commitBlock (hH : DistinctHeaders H) (h : Follows H s d chain) (hb : H b.header)
    (hacc : Accepted s b c) :
    Follows H (s.commitBlock b c).1 (d.persistApplied (s.commitBlock b c).2) (b :: chain) := by
  obtain ⟨hdisk, hlinked⟩ := h.rests.push hH hb hacc
  exact ⟨Links.Keyed.insert h.memory hb, hdisk, rfl, rfl, hlinked⟩

theorem Follows.revertBlock {tip : Block P} (hH : DistinctHeaders H) (h : Follows H s d chain)
    (hpos : s.currentHeight ≠ 0) (htip : s.blocks.lookup s.lastBlockHash = some tip) :
    ∃ rest, Follows H (s.revertBlock tip).1 (d.persistRollback (s.revertBlock tip).2) rest := by
  obtain ⟨top, rest, -, hlookup, -, hrest⟩ := h.rests.pop hpos
  obtain ⟨hkey, hmem⟩ := h.memory _ _ htip
  obtain ⟨hkey', hmem'⟩ := h.disk _ _ hlookup
  -- memory and disk may have different blocks under the hash, with one header
  have hheader := hH.inj _ _ hmem' hmem (hkey'.trans hkey.symm)
  rw [hheader] at hrest
  exact ⟨rest, h.memory, h.disk, rfl, rfl, hrest.linked⟩

/-- Pruning a block leaves its header. -/
theorem Follows.compact (h : Follows H s d chain) (order : List Bytes32) (horizon : UInt64) :
    Follows H (s.compact order horizon).1 d chain := by
  refine ⟨?_, h.disk, h.height, h.tip, h.linked⟩
  intro hash b' hb'
  rw [lookup_compact] at hb'
  obtain ⟨b, hb, rfl⟩ := Option.map_eq_some_iff.mp hb'
  exact h.memory hash b hb

theorem lookup_persistCompaction (s : ChainState P) (d : Storage P) (touched : List Bytes32)
    (hash : Bytes32) : (d.persistCompaction s touched).blocks.lookup hash =
      if hash ∈ touched then (s.blocks.lookup hash).or (d.blocks.lookup hash)
      else d.blocks.lookup hash := by
  have hrework := lookup_foldl_rework s.blocks (fun _ b => b) touched d.blocks hash
  rwa [Option.map_id'] at hrework

theorem Follows.persistCompaction (hH : DistinctHeaders H) (h : Follows H s d chain)
    (touched : List Bytes32) : ∃ chain', Follows H s (d.persistCompaction s touched) chain' := by
  have hdisk : Headed H (d.persistCompaction s touched).blocks := by
    intro hash b hb
    rw [lookup_persistCompaction] at hb
    split at hb
    · rcases Option.or_eq_some_iff.mp hb with hb | ⟨-, hb⟩
      · exact h.memory hash b hb
      · exact h.disk hash b hb
    · exact h.disk hash b hb
  have hsame : ∀ hash b, d.blocks.lookup hash = some b →
      ∃ b', (d.persistCompaction s touched).blocks.lookup hash = some b' ∧ b'.header = b.header := by
    intro hash b hb
    obtain ⟨b', hb'⟩ : ∃ b', (d.persistCompaction s touched).blocks.lookup hash = some b' := by
      rw [lookup_persistCompaction, hb]
      split
      · exact Option.isSome_iff_exists.mp (by simp)
      · exact ⟨b, rfl⟩
    exact ⟨b', hb', hH.inj _ _ (hdisk _ _ hb').2 (h.disk _ _ hb).2
      ((hdisk _ _ hb').1.trans (h.disk _ _ hb).1.symm)⟩
  obtain ⟨chain', hchain'⟩ := h.rests.relinked hdisk hsame
  exact ⟨chain', h.memory, hdisk, h.height, h.tip, hchain'.linked⟩

theorem Follows.loadState (h : Follows H s d chain) : Follows H d.loadState d chain := by
  refine ⟨h.disk, h.disk, rfl, rfl, ?_⟩
  show (blockLinks P).Linked d.blocks (d.tip.getD zeroHash) (d.height.getD 0).toNat chain
  rw [h.tip, h.height]
  exact h.linked

theorem Persisting.follows (hH : DistinctHeaders H) (h : Persisting H s d) :
    ∃ chain, Follows H s d chain := by
  induction h with
  | fresh => exact ⟨[], Links.Keyed.empty, Links.Keyed.empty, rfl, rfl, rfl, rfl⟩
  | store h hb ih =>
      obtain ⟨chain, ih⟩ := ih
      exact ⟨chain, Links.Keyed.insert ih.memory hb, ih.disk, ih.height, ih.tip, ih.linked⟩
  | apply h hb happly ih =>
      obtain ⟨chain, ih⟩ := ih
      obtain ⟨c, hcheck, hcommit⟩ := applyLinearBlock_eq_some_iff.mp happly
      obtain ⟨rfl, rfl⟩ := Prod.mk.inj hcommit
      exact ⟨_, ih.commitBlock hH hb (accepted_of_checkBlock hcheck)⟩
  | rollback h hroll ih =>
      obtain ⟨chain, ih⟩ := ih
      unfold rollbackBlock at hroll
      split at hroll
      · cases hroll
      next hpos =>
        obtain ⟨tip, htip, hrevert⟩ := Option.map_eq_some_iff.mp hroll
        obtain ⟨rfl, rfl⟩ := Prod.mk.inj hrevert
        exact ih.revertBlock hH hpos htip
  | compact order horizon h ih =>
      obtain ⟨chain, ih⟩ := ih
      exact ⟨chain, ih.compact order horizon⟩
  | persistCompaction touched h ih =>
      obtain ⟨chain, ih⟩ := ih
      exact ih.persistCompaction hH touched
  | restart h ih =>
      obtain ⟨chain, ih⟩ := ih
      exact ⟨chain, ih.loadState⟩

/-- **Stopping between two writes.** On every reachable node, a stop after `n` writes of a delta leaves
a disk from which a mixture of the states before and after the delta is loaded. -/
theorem crash_mixes (hH : DistinctHeaders H) (h : Persisting H s d) :
    (∀ b s' δ, H b.header → s.applyLinearBlock b = some (s', δ) → ∀ n,
      Mixed d.loadState (d.persistApplied δ).loadState (d.stopped (appliedWrites δ) n).loadState
        n 2 3 5 6) ∧
    ∀ s' δ, s.rollbackBlock = some (s', δ) → ∀ n,
      Mixed d.loadState (d.persistRollback δ).loadState (d.stopped (rollbackWrites δ) n).loadState
        n 1 2 3 4 := by
  refine ⟨?_, fun _ δ _ n => mixed_rollback δ n⟩
  intro b s' δ hb happly n
  obtain ⟨chain, hfollows⟩ := h.follows hH
  obtain ⟨c, hcheck, hcommit⟩ := applyLinearBlock_eq_some_iff.mp happly
  obtain ⟨rfl, rfl⟩ := Prod.mk.inj hcommit
  exact mixed_applied _ n (hfollows.chain_insert hH hb (accepted_of_checkBlock hcheck))

end ChainState

namespace Devnet

open ChainState Storage

theorem naming_distinct : DistinctHeaders (· ∈ [genesis, nameBlock].map Block.header) :=
  distinctHeaders_of_nodup (by decide +kernel)

theorem naming_persisting :
    Persisting (· ∈ [genesis, nameBlock].map Block.header) (deliver [genesis]) (persisted [genesis]) := by
  apply persisting_persisted
  intro b hb
  rw [List.mem_singleton.mp hb]
  exact List.mem_cons_self

/-- The process stops when the coins of a block have been written, and nothing after them. -/
theorem naming_half_written :
    ∃ s' δ, (deliver [genesis]).applyLinearBlock nameBlock = some (s', δ) ∧
      Mixed (persisted [genesis]).loadState ((persisted [genesis]).persistApplied δ).loadState
        ((persisted [genesis]).stopped (appliedWrites δ) 2).loadState 2 2 3 5 6 := by
  have hrun : ((deliver [genesis]).applyLinearBlock nameBlock).isSome = true := by decide +kernel
  obtain ⟨⟨s', δ⟩, happly⟩ := Option.isSome_iff_exists.mp hrun
  refine ⟨s', δ, happly, ?_⟩
  exact (crash_mixes naming_distinct naming_persisting).1 nameBlock s' δ (by simp) happly 2

/-- What is loaded then has the coins of the new block, at the old height. -/
theorem naming_torn :
    ∃ s' δ, (deliver [genesis]).applyLinearBlock nameBlock = some (s', δ) ∧
      Persisting (· ∈ [genesis, nameBlock].map Block.header) (deliver [genesis])
        (persisted [genesis]) ∧
      ((persisted [genesis]).stopped (appliedWrites δ) 2).loadState.utxos ≠
        (persisted [genesis]).loadState.utxos ∧
      ((persisted [genesis]).stopped (appliedWrites δ) 2).loadState.currentHeight ≠
        ((persisted [genesis]).persistApplied δ).loadState.currentHeight := by
  have hrun : ((deliver [genesis]).applyLinearBlock nameBlock).map (fun r =>
      decide (((persisted [genesis]).stopped (appliedWrites r.2) 2).loadState.utxos ≠
          (persisted [genesis]).loadState.utxos) &&
        decide (((persisted [genesis]).stopped (appliedWrites r.2) 2).loadState.currentHeight ≠
          ((persisted [genesis]).persistApplied r.2).loadState.currentHeight)) = some true := by
    decide +kernel
  obtain ⟨⟨s', δ⟩, happly, htorn⟩ := Option.map_eq_some_iff.mp hrun
  obtain ⟨hcoins, hheight⟩ := Bool.and_eq_true_iff.mp htorn
  exact ⟨s', δ, happly, naming_persisting, of_decide_eq_true hcoins, of_decide_eq_true hheight⟩

end Devnet

end Haze
