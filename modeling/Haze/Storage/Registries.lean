import Haze.Chain.Kernels
import Haze.Chain.Undo
import Haze.Storage.Persist

/-!
# Restarting with the same registries

The disk has no registries. `load_state` walks the stored blocks from the tip and runs their
operations once more, without the checks. That is a second implementation of the transition: on an
accepted block it does what the first one did (`Rebuilds`), and the walk finds the blocks that the
state rests on, whatever was reorganized on the way (`OnDisk`).
-/

namespace Haze

open Checked Storage

variable {P : Crypto} {D : Block P → Prop}

namespace ChainState

variable {s t : ChainState P} {d : Storage P} {b tip : Block P} {c : Candidate P}
  {chain rest : List (Block P)}

/-! ## One block

The loader's loop over operations against the transition's. The transition writes the records that its
checks have computed, the loader computes them again from what it finds; on an accepted block these are the
same. -/

theorem lookup_foldl_insert_of_notMem {V α : Type} {key : α → String} {val : α → V} {ops : List α}
    {m : KeyedMap String V} {k : String} (h : k ∉ ops.map key) :
    (ops.foldl (fun m op => m.insert (key op) (val op)) m).lookup k = m.lookup k := by
  have hfold : ops.foldl (fun m op => m.insert (key op) (val op)) m =
      KeyedMap.insertAll m (ops.map fun op => (key op, val op)) := by
    rw [KeyedMap.insertAll, List.foldl_map]
  rw [hfold, KeyedMap.lookup_insertAll_of_notMem]
  rwa [List.map_map]

theorem loadTransfer_eq :
    loadTransfer = fun (m : KeyedMap String (NameRecord P)) op =>
      m.changeFrom m op.name op.record := by
  funext m op
  unfold loadTransfer KeyedMap.changeFrom
  cases m.lookup op.name <;> rfl

theorem transferName_eq (s : ChainState P) :
    s.transferName = fun m op => s.nameRegistry.changeFrom m op.name op.record := by
  funext m op
  unfold transferName KeyedMap.changeFrom
  cases s.nameRegistry.lookup op.name <;> rfl

theorem loadTransferAsset_eq :
    loadTransferAsset = fun (m : KeyedMap String (AssetRecord P)) op =>
      m.changeFrom m op.assetId op.record := by
  funext m op
  unfold loadTransferAsset KeyedMap.changeFrom
  cases m.lookup op.assetId <;> rfl

theorem transferAsset_eq (s : ChainState P) :
    s.transferAsset = fun m op => s.assetRegistry.changeFrom m op.assetId op.record := by
  funext m op
  unfold transferAsset KeyedMap.changeFrom
  cases s.assetRegistry.lookup op.assetId <;> rfl

/-- What the loader makes of the names of an accepted block. -/
theorem Accepted.loadNames_eq (hacc : Accepted s b c) :
    loadNames s.nameRegistry b = s.namesAfter b := by
  have hsame : ∀ op ∈ b.transferOps,
      (s.registerNames b.height b.nameOps).lookup op.name = s.nameRegistry.lookup op.name := by
    intro op hop
    apply lookup_foldl_insert_of_notMem
    intro hmem
    exact hacc.names.absent _ hmem (hacc.names.present _ (List.mem_map_of_mem hop))
  rw [loadNames, loadTransfer_eq, namesAfter, transferName_eq]
  exact KeyedMap.foldl_changeFrom_self hacc.names.nodup hsame

theorem Accepted.loadAssets_eq (hacc : Accepted s b c) :
    loadAssets s.assetRegistry b = s.assetsAfter b := by
  have hsame : ∀ op ∈ b.transferAssetOps,
      (s.mintAssets b.height b.mintOps).lookup op.assetId = s.assetRegistry.lookup op.assetId := by
    intro op hop
    apply lookup_foldl_insert_of_notMem
    intro hmem
    exact hacc.assets.absent _ hmem (hacc.assets.present _ (List.mem_map_of_mem hop))
  rw [loadAssets, loadTransferAsset_eq, assetsAfter, transferAsset_eq]
  exact KeyedMap.foldl_changeFrom_self hacc.assets.nodup hsame

/-! ## A chain of blocks

`Layers` keeps, below each block of the chain, a state with the registries as they were before that block.
Rolling back uncovers it, which is how the relation survives a reorganization. -/

/-- The registries are what the loader makes of the chain. -/
structure Rebuilt (s : ChainState P) (chain : List (Block P)) : Prop where
  names : s.nameRegistry = chain.foldr (fun b m => loadNames m b) ∅
  assets : s.assetRegistry = chain.foldr (fun b m => loadAssets m b) ∅
  collections : s.collectionRegistry = chain.foldr (fun b m => loadCollections m b) ∅
  counts : s.collectionMintCounts = chain.foldr (fun b m => loadMintCounts m b) ∅

theorem Rebuilt.restores (h : Rebuilt s chain) (ht : Restores t s) : Rebuilt t chain :=
  ⟨ht.nameRegistry.trans h.names, ht.assetRegistry.trans h.assets,
    ht.collectionRegistry.trans h.collections, ht.collectionMintCounts.trans h.counts⟩

/-- The loader does to an accepted block what the transition did. -/
theorem Rebuilt.commitBlock (h : Rebuilt s chain) (hcheck : s.checkBlock b = some c) :
    Rebuilt (s.commitBlock b c).1 (b :: chain) := by
  have hacc := accepted_of_checkBlock hcheck
  have hrec := recorded_of_checkBlock hcheck
  have hfolded := folded_of_checkBlock hcheck
  constructor
  · rw [hrec.nameRegistry_eq, hfolded.registry, List.foldr_cons, ← h.names, hacc.loadNames_eq]
  · rw [hrec.assetRegistry_eq, hfolded.assets, List.foldr_cons, ← h.assets, hacc.loadAssets_eq]
  · rw [hrec.collectionRegistry_eq, hfolded.collections, List.foldr_cons, ← h.collections]
    rfl
  · rw [hacc.collectionMintCounts_eq, hfolded.counts, List.foldr_cons, ← h.counts]
    rfl

/-- The registries of `s` are what the blocks of the chain have left, each on the state it was applied
on. -/
inductive Layers (D : Block P → Prop) : ChainState P → List (Block P) → Prop
  | fresh {s : ChainState P} : Restores s ChainState.new → Layers D s []
  | block {s₀ s : ChainState P} {rest : List (Block P)} {b : Block P} {c : Candidate P} :
      Layers D s₀ rest → Ready D s₀ → D b → s₀.checkBlock b = some c →
        Restores s (s₀.commitBlock b c).1 → Layers D s (b :: rest)

theorem Layers.mono (h : Layers D s chain) (ht : Restores t s) : Layers D t chain := by
  cases h with
  | fresh hs => exact .fresh (ht.trans hs)
  | block hrest hready hb hcheck hs => exact .block hrest hready hb hcheck (ht.trans hs)

theorem Layers.rebuilt (h : Layers D s chain) : Rebuilt s chain := by
  induction h with
  | fresh hs => exact Rebuilt.restores ⟨rfl, rfl, rfl, rfl⟩ hs
  | block _ _ _ hcheck hs ih => exact (ih.commitBlock hcheck).restores hs

/-- Rolling back uncovers the layer below. -/
theorem Layers.revertBlock (hD : DistinctHashes D) (h : Layers D s (tip :: rest))
    (hne : tip.height ≠ 0) : Layers D (s.revertBlock tip).1 rest := by
  cases h with
  | block hrest hready hb hcheck hs =>
      exact hrest.mono (hs.revertBlock hD hready hb hne (accepted_of_checkBlock hcheck))

/-! ## The blocks on disk

The stored blocks are more than the chain, since abandoned forks stay. The walk from the tip on disk meets
the blocks of the chain because those were written under their hashes and no hash is used twice. -/

theorem activeChainBlocks_eq {blocks : KeyedMap Bytes32 (Block P)} {fuel n : ℕ} {hash : Bytes32}
    (hroot : blocks.lookup zeroHash = none) (h : (blockLinks P).Linked blocks hash n chain)
    (hfuel : chain.length < fuel) : activeChainBlocks blocks fuel hash = chain := by
  induction chain generalizing fuel n hash with
  | nil =>
      obtain ⟨rfl, -⟩ := h
      cases fuel with
      | zero => omega
      | succ fuel => exact if_pos rfl
  | cons b rest ih =>
      obtain ⟨hlookup, hheight, hrest⟩ := h
      have hheight' : b.height.toNat = n := hheight
      have hne : hash ≠ zeroHash := by
        rintro rfl
        rw [hroot] at hlookup
        cases hlookup
      rw [List.length_cons] at hfuel
      cases fuel with
      | zero => omega
      | succ fuel =>
          simp only [activeChainBlocks, if_neg hne, hlookup]
          congr 1
          split at hrest
          next h0 =>
            have hb0 : b.height = 0 := UInt64.toNat_inj.mp (hheight'.trans h0)
            rw [if_pos hb0, hrest]
          next h0 =>
            have hb0 : b.height ≠ 0 := by
              intro hb0
              rw [hb0] at hheight'
              exact h0 hheight'.symm
            rw [if_neg hb0]
            exact ih hrest (by omega)

/-- Memory and disk rest on the same blocks. -/
structure OnDisk (D : Block P → Prop) (s : ChainState P) (d : Storage P) (chain : List (Block P)) :
    Prop where
  memory : Tracks D s chain
  disk : Tracks D d.loadState chain
  height : d.loadState.currentHeight = s.currentHeight
  tip : d.loadState.lastBlockHash = s.lastBlockHash

theorem OnDisk.chain_eq (hD : DistinctHashes D) (h : OnDisk D s d chain) :
    activeChainBlocks d.blocks (d.blocks.keys.card + 1) (d.tip.getD zeroHash) = chain :=
  activeChainBlocks_eq (h.disk.keyed.lookup_root hD) h.disk.linked
    (Nat.lt_succ_of_le (h.disk.linked.length_le h.disk.keyed))

theorem OnDisk.new : OnDisk D (ChainState.new : ChainState P) Storage.empty [] :=
  ⟨Tracks.new, ⟨Links.Keyed.empty, rfl, rfl⟩, rfl, rfl⟩

theorem OnDisk.storeBlock (hD : DistinctHashes D) (h : OnDisk D s d chain) (hb : D b) :
    OnDisk D (s.storeBlock b) d chain :=
  ⟨h.memory.storeBlock hD hb, h.disk, h.height, h.tip⟩

theorem OnDisk.commitBlock (hD : DistinctHashes D) (h : OnDisk D s d chain) (hb : D b)
    (hacc : Accepted s b c) :
    OnDisk D (s.commitBlock b c).1 (d.persistApplied (s.commitBlock b c).2) (b :: chain) := by
  refine ⟨h.memory.commitBlock hD hb hacc, h.disk.push hD hb ?_ rfl rfl rfl, rfl, rfl⟩
  rw [h.height, h.tip]
  exact hacc.connected

theorem OnDisk.revertBlock (h : OnDisk D s d (tip :: rest)) (hne : tip.height ≠ 0) :
    OnDisk D (s.revertBlock tip).1 (d.persistRollback (s.revertBlock tip).2) rest := by
  have hheight : (d.persistRollback (s.revertBlock tip).2).loadState.currentHeight =
      d.loadState.currentHeight - 1 := by
    rw [h.height]
    rfl
  have hdisk := h.disk.pop (t := (d.persistRollback (s.revertBlock tip).2).loadState) hne rfl hheight
    rfl
  exact ⟨(h.memory.revertBlock hne).1, hdisk.1, rfl, rfl⟩

/-! ## Runs

The two relations and what a rollback relies on, along every run. -/

/-- What a persisted run maintains. -/
structure Restorable (D : Block P → Prop) (s : ChainState P) (d : Storage P)
    (chain : List (Block P)) : Prop where
  onDisk : OnDisk D s d chain
  layers : Layers D s chain
  ready : Ready D s

theorem restorable_persisted {bs : List (Block P)} (hD : DistinctHashes (· ∈ bs)) :
    ∃ chain, Restorable (· ∈ bs) (deliver bs) (persisted bs) chain := by
  apply persist_induct (D := (· ∈ bs)) (Q := fun _ _ => True) (R := fun _ => True)
    (J := fun s d => ∃ chain, Restorable (· ∈ bs) s d chain) (fun _ hb => hb)
  · exact fun _ _ _ _ => deliveryMoves_true
  · exact ⟨[], OnDisk.new, .fresh (Restores.refl _), Links.Keyed.empty, fun _ _ => rfl,
      fun _ _ => rfl, Counter.Positive.empty⟩
  · rintro s d b hb ⟨chain, h⟩
    have hrestores : Restores (s.storeBlock b) s :=
      { Restores.refl s with
        blocks := fun _ _ hk => h.ready.keyed.lookup_insert hD hb hk }
    exact ⟨chain, h.onDisk.storeBlock hD hb, h.layers.mono hrestores, h.ready.keyed.insert hb,
      h.ready.names, h.ready.assets, h.ready.positive⟩
  · rintro s d b c hb ⟨chain, h⟩ hcheck -
    have hacc := accepted_of_checkBlock hcheck
    exact ⟨b :: chain, h.onDisk.commitBlock hD hb hacc,
      .block h.layers h.ready hb hcheck (Restores.refl _), h.ready.commitBlock hb hacc⟩
  · rintro s d tip hpos htip ⟨chain, h⟩ -
    obtain ⟨rest, rfl, hheight⟩ := h.onDisk.memory.exists_tail hpos htip
    have hne : tip.height ≠ 0 := hheight ▸ hpos
    exact ⟨rest, h.onDisk.revertBlock hne, h.layers.revertBlock hD hne, h.ready.revertBlock hpos tip⟩

/-- **Restarting preserves the registries**, the mint counts, the height and the tip, after every run
of deliveries. -/
theorem registries_persisted {bs : List (Block P)} (hD : DistinctHashes (· ∈ bs)) :
    (persisted bs).loadState.nameRegistry = (deliver bs).nameRegistry ∧
      (persisted bs).loadState.assetRegistry = (deliver bs).assetRegistry ∧
      (persisted bs).loadState.collectionRegistry = (deliver bs).collectionRegistry ∧
      (persisted bs).loadState.collectionMintCounts = (deliver bs).collectionMintCounts ∧
      (persisted bs).loadState.currentHeight = (deliver bs).currentHeight ∧
      (persisted bs).loadState.lastBlockHash = (deliver bs).lastBlockHash := by
  obtain ⟨chain, h⟩ := restorable_persisted hD
  have hchain := h.onDisk.chain_eq hD
  have hrebuilt := h.layers.rebuilt
  refine ⟨?_, ?_, ?_, ?_, h.onDisk.height, h.onDisk.tip⟩
  · simp only [loadState, hchain, List.foldl_reverse, hrebuilt.names]
  · simp only [loadState, hchain, List.foldl_reverse, hrebuilt.assets]
  · simp only [loadState, hchain, List.foldl_reverse, hrebuilt.collections]
  · simp only [loadState, hchain, List.foldl_reverse, hrebuilt.counts]

end ChainState

namespace Devnet

open ChainState

/-- A reorganization onto a branch that registers a name and transfers it. -/
def renamedRun : List (Block crypto) := [genesis, rivalBlock, nameBlock, transferBlock]

theorem renamedRun_restarts :
    ("alice" ∈ (deliver renamedRun).nameRegistry ∧ rivalBlock.hash ≠ (deliver renamedRun).lastBlockHash) ∧
      (persisted renamedRun).loadState.nameRegistry = (deliver renamedRun).nameRegistry ∧
      (persisted renamedRun).loadState.assetRegistry = (deliver renamedRun).assetRegistry ∧
      (persisted renamedRun).loadState.collectionRegistry = (deliver renamedRun).collectionRegistry ∧
      (persisted renamedRun).loadState.collectionMintCounts =
        (deliver renamedRun).collectionMintCounts ∧
      (persisted renamedRun).loadState.currentHeight = (deliver renamedRun).currentHeight ∧
      (persisted renamedRun).loadState.lastBlockHash = (deliver renamedRun).lastBlockHash := by
  have hrun : (zeroHash :: renamedRun.map Block.hash).Nodup ∧
      "alice" ∈ (deliver renamedRun).nameRegistry ∧
      rivalBlock.hash ≠ (deliver renamedRun).lastBlockHash := by
    decide +kernel
  exact ⟨hrun.2, registries_persisted (distinctHashes_of_nodup hrun.1)⟩

end Devnet

end Haze
