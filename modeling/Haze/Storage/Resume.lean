import Haze.Chain.Pinned
import Haze.Storage.Registries

/-!
# Rolling back after a restart

`rollback_block` undoes a registration by erasing it, and a transfer by putting back the record that was
there before, out of `transfer_snapshots` and `asset_transfer_snapshots`. The disk has neither, and
`load_state` leaves both empty: after a restart a transfer below the tip cannot be undone. Collections
and mint counts are undone from the blocks alone.

So rolling back on the restarted node gives what it gives in memory exactly when the blocks rolled back
have left every name and every asset from below them to whoever held it (`HoldersKept`).
-/

namespace Haze

open Storage

variable {P : Crypto} {D : Block P → Prop}

/-! ## Who holds a name or an asset, by the operations of the blocks

A block gives a name to the new owner of its transfer, or else to the owner of its registration: the
transfers come second. Who holds a name after a chain is what the highest block that mentions it says. -/

/-- What a block says about a name: to whom it belongs and to whom it resolves. -/
def Block.nameGiven (b : Block P) (name : String) : Option (Commitment P × Commitment P) :=
  match b.transferOps.find? fun op => op.name = name with
  | some op => some (op.newOwnerPubkey, op.newResolvesTo)
  | none => (b.nameOps.find? fun op => op.name = name).map fun op => (op.ownerPubkey, op.resolvesTo)

def Block.assetGiven (b : Block P) (assetId : String) : Option (Commitment P) :=
  match b.transferAssetOps.find? fun op => op.assetId = assetId with
  | some op => some op.newOwnerPubkey
  | none => (b.mintOps.find? fun op => op.assetId = assetId).map MintAssetOp.ownerPubkey

/-- What the blocks say, the newest first. -/
def nameHolder (chain : List (Block P)) (name : String) : Option (Commitment P × Commitment P) :=
  chain.findSome? fun b => b.nameGiven name

def assetHolder (chain : List (Block P)) (assetId : String) : Option (Commitment P) :=
  chain.findSome? fun b => b.assetGiven assetId

theorem nameHolder_cons (b : Block P) (chain : List (Block P)) (name : String) :
    nameHolder (b :: chain) name = (b.nameGiven name).or (nameHolder chain name) := by
  rw [nameHolder, List.findSome?_cons]
  cases b.nameGiven name <;> rfl

theorem assetHolder_cons (b : Block P) (chain : List (Block P)) (assetId : String) :
    assetHolder (b :: chain) assetId = (b.assetGiven assetId).or (assetHolder chain assetId) := by
  rw [assetHolder, List.findSome?_cons]
  cases b.assetGiven assetId <;> rfl

def NameRecord.holder (r : NameRecord P) : Commitment P × Commitment P :=
  (r.ownerPubkey, r.resolvesTo)

/-- The top `k` blocks leave the names and assets from below them to their holders. -/
structure HoldersKept (chain : List (Block P)) (k : ℕ) : Prop where
  names : ∀ name h, nameHolder (chain.drop k) name = some h → nameHolder chain name = some h
  assets : ∀ id h, assetHolder (chain.drop k) id = some h → assetHolder chain id = some h

namespace ChainState

variable {s s₀ t : ChainState P} {b : Block P} {c : Candidate P} {chain : List (Block P)}

/-! ## Rolling back `k` times

Several rollbacks in a row, from any state that tracks a chain. -/

theorem revertBlocks_take_succ {k : ℕ} {tip : Block P} {rest : List (Block P)}
    (hdrop : chain.drop k = tip :: rest) :
    s.revertBlocks (chain.take (k + 1)) = ((s.revertBlocks (chain.take k)).revertBlock tip).1 := by
  have hget : chain[k]? = some tip := by
    rw [← List.head?_drop, hdrop, List.head?_cons]
  rw [List.take_add_one, hget, Option.toList_some, revertBlocks, List.foldl_append]
  rfl

/-- Down to height 0, rolling back takes off the blocks of the chain. -/
theorem Tracks.rollbackTimes {k : ℕ} (h : Tracks D s chain) (hk : k ≤ s.currentHeight.toNat) :
    ChainState.rollbackTimes k s = some (s.revertBlocks (chain.take k)) ∧
      Tracks D (s.revertBlocks (chain.take k)) (chain.drop k) ∧
      (s.revertBlocks (chain.take k)).currentHeight.toNat + k = s.currentHeight.toNat ∧
      ∀ b ∈ chain.take k, b.height ≠ 0 := by
  induction k with
  | zero => exact ⟨rfl, h, rfl, by simp⟩
  | succ k ih =>
      obtain ⟨hroll, htracks, hheight, hpos⟩ := ih (Nat.le_of_succ_le hk)
      set t := s.revertBlocks (chain.take k)
      have ht : t.currentHeight ≠ 0 := by
        intro h0
        rw [h0, UInt64.toNat_zero] at hheight
        omega
      generalize hdrop : chain.drop k = top at htracks
      cases top with
      | nil => exact absurd (UInt64.toNat_inj.mp htracks.linked.2) ht
      | cons tip rest =>
          obtain ⟨hlookup, htip, -⟩ := htracks.linked
          have hne : tip.height ≠ 0 := by
            intro h0
            exact ht ((UInt64.toNat_inj.mp htip).symm.trans h0)
          have hstep : t.rollbackBlock = some (t.revertBlock tip) := by
            rw [ChainState.rollbackBlock, if_neg ht, hlookup, Option.map_some]
          obtain ⟨htracks', hheight'⟩ := htracks.revertBlock hne
          have hrest : chain.drop (k + 1) = rest := by
            rw [← List.tail_drop, hdrop, List.tail_cons]
          have hsucc : s.revertBlocks (chain.take (k + 1)) = (t.revertBlock tip).1 :=
            revertBlocks_take_succ hdrop
          rw [hsucc, hrest]
          refine ⟨?_, htracks', by omega, ?_⟩
          · rw [ChainState.rollbackTimes, hroll, Option.bind_eq_bind, Option.bind_some, hstep]
            rfl
          · have hget : chain[k]? = some tip := by rw [← List.head?_drop, hdrop, List.head?_cons]
            rw [List.take_add_one, hget, Option.toList_some, List.forall_mem_append,
              List.forall_mem_singleton]
            exact ⟨hpos, hne⟩

/-! ## One block over the registries below it

A block adds records and changes the holders of others; what a transfer does not change stays fixed for
good. With the holders and the fixed parts a record is known. -/

/-- What a transfer leaves of a record. -/
def nameFixed (r : NameRecord P) : String × UInt64 := (r.name, r.registeredAtBlock)

def assetFixed (r : AssetRecord P) : String × List UInt8 × UInt64 × Option String :=
  (r.assetId, r.metadata, r.mintedAtBlock, r.collectionId)

theorem NamesWritten.grown {height : UInt64} {regs : List (RegisterNameOp P)}
    {transfers : List (TransferNameOp P)} {seen : Finset String}
    {registry : KeyedMap String (NameRecord P)}
    (h : NamesWritten s height regs transfers seen registry)
    (hkeyed : KeyedMap.Keyed NameRecord.name s.nameRegistry)
    (hnew : ∀ k ∈ regs.map RegisterNameOp.name, k ∉ s.nameRegistry) :
    KeyedMap.Grown nameFixed s.nameRegistry registry (regs.map RegisterNameOp.name) := by
  refine ⟨hnew, ?_, ?_⟩
  · intro name r hr
    rcases h.written.updated_or_kept hnew (Finmap.mem_of_lookup_eq_some hr) with
      ⟨op, hop, rfl, -⟩ | hsame
    · obtain ⟨current, hcur, -, hlookup⟩ := h.transferred op hop
      obtain rfl : current = r := Option.some.inj (hcur.symm.trans hr)
      have hname : op.name = current.name := (hkeyed _ _ hr).symm
      exact ⟨_, hlookup, congrArg (·, current.registeredAtBlock) hname⟩
    · exact ⟨r, hsame.trans hr, rfl⟩
  · intro name hname
    by_cases hold : name ∈ s.nameRegistry
    · exact .inl hold
    · refine .inr (h.written.mem_new ?_ hold hname)
      intro op hop
      obtain ⟨current, hcur, -⟩ := h.transferred op hop
      exact Finmap.mem_of_lookup_eq_some hcur

theorem AssetsWritten.grown {collections : KeyedMap String (CollectionRecord P)}
    {mints : List (MintAssetOp P)} {transfers : List (TransferAssetOp P)} {seen : Finset String}
    {registry : KeyedMap String (AssetRecord P)}
    (h : AssetsWritten s b collections mints transfers seen registry)
    (hkeyed : KeyedMap.Keyed AssetRecord.assetId s.assetRegistry)
    (hnew : ∀ k ∈ mints.map MintAssetOp.assetId, k ∉ s.assetRegistry) :
    KeyedMap.Grown assetFixed s.assetRegistry registry (mints.map MintAssetOp.assetId) := by
  refine ⟨hnew, ?_, ?_⟩
  · intro assetId r hr
    rcases h.written.updated_or_kept hnew (Finmap.mem_of_lookup_eq_some hr) with
      ⟨op, hop, rfl, -⟩ | hsame
    · obtain ⟨current, hcur, -, -, -, hlookup⟩ := h.transferred op hop
      obtain rfl : current = r := Option.some.inj (hcur.symm.trans hr)
      have hid : op.assetId = current.assetId := (hkeyed _ _ hr).symm
      exact ⟨_, hlookup,
        congrArg (·, current.metadata, current.mintedAtBlock, current.collectionId) hid⟩
    · exact ⟨r, hsame.trans hr, rfl⟩
  · intro assetId hasset
    by_cases hold : assetId ∈ s.assetRegistry
    · exact .inl hold
    · refine .inr (h.written.mem_new ?_ hold hasset)
      intro op hop
      obtain ⟨current, hcur, -⟩ := h.transferred op hop
      exact Finmap.mem_of_lookup_eq_some hcur

/-- What an accepted block says about the names, before what the blocks below say. -/
theorem Recorded.nameHolder (h : Recorded s b c) (name : String) :
    (c.registry.lookup name).map NameRecord.holder =
      (b.nameGiven name).or ((s.nameRegistry.lookup name).map NameRecord.holder) := by
  obtain ⟨seen, hnames⟩ := h.names
  unfold Block.nameGiven
  cases htrans : b.transferOps.find? fun op => op.name = name with
  | some op =>
      obtain rfl : op.name = name := by simpa using List.find?_some htrans
      obtain ⟨current, -, -, hlookup⟩ := hnames.transferred op (List.mem_of_find?_eq_some htrans)
      rw [hlookup]
      rfl
  | none =>
      cases hreg : b.nameOps.find? fun op => op.name = name with
      | some op =>
          obtain rfl : op.name = name := by simpa using List.find?_some hreg
          rw [(hnames.registered op (List.mem_of_find?_eq_some hreg)).2]
          rfl
      | none =>
          rw [hnames.written.frame name]
          · rfl
          · simp only [List.find?_eq_none, decide_eq_true_eq] at htrans hreg
            simp only [List.mem_append, List.mem_map, not_or, not_exists, not_and]
            exact ⟨hreg, htrans⟩

theorem Recorded.assetHolder (h : Recorded s b c) (assetId : String) :
    (c.assets.lookup assetId).map AssetRecord.ownerPubkey =
      (b.assetGiven assetId).or ((s.assetRegistry.lookup assetId).map AssetRecord.ownerPubkey) := by
  obtain ⟨seen, hassets⟩ := h.assets
  unfold Block.assetGiven
  cases htrans : b.transferAssetOps.find? fun op => op.assetId = assetId with
  | some op =>
      obtain rfl : op.assetId = assetId := by simpa using List.find?_some htrans
      obtain ⟨current, -, -, -, -, hlookup⟩ :=
        hassets.transferred op (List.mem_of_find?_eq_some htrans)
      rw [hlookup]
      rfl
  | none =>
      cases hmint : b.mintOps.find? fun op => op.assetId = assetId with
      | some op =>
          obtain rfl : op.assetId = assetId := by simpa using List.find?_some hmint
          rw [(hassets.minted op (List.mem_of_find?_eq_some hmint)).2.1]
          rfl
      | none =>
          rw [hassets.written.frame assetId]
          · rfl
          · simp only [List.find?_eq_none, decide_eq_true_eq] at htrans hmint
            simp only [List.mem_append, List.mem_map, not_or, not_exists, not_and]
            exact ⟨hmint, htrans⟩

/-! ## A chain of blocks

The same for a chain of blocks, by adding up. -/

/-- The registries by the operations of the chain. -/
structure Held (s : ChainState P) (chain : List (Block P)) : Prop where
  keyed : RecordsKeyed s
  names : ∀ name, (s.nameRegistry.lookup name).map NameRecord.holder = nameHolder chain name
  assets : ∀ id, (s.assetRegistry.lookup id).map AssetRecord.ownerPubkey = assetHolder chain id

theorem Held.restores (h : Held s chain) (ht : Restores t s) : Held t chain := by
  obtain ⟨⟨hkn, hka, hkc⟩, hnames, hassets⟩ := h
  rw [← ht.nameRegistry] at hkn hnames
  rw [← ht.assetRegistry] at hka hassets
  rw [← ht.collectionRegistry] at hkc
  exact ⟨⟨hkn, hka, hkc⟩, hnames, hassets⟩

theorem Held.commitBlock (h : Held s chain) (hcheck : s.checkBlock b = some c) :
    Held (s.commitBlock b c).1 (b :: chain) := by
  have hrec := recorded_of_checkBlock hcheck
  refine ⟨h.keyed.commitBlock hcheck, ?_, ?_⟩
  · intro name
    rw [hrec.nameRegistry_eq, hrec.nameHolder, h.names, nameHolder_cons]
  · intro id
    rw [hrec.assetRegistry_eq, hrec.assetHolder, h.assets, assetHolder_cons]

theorem Layers.held (h : Layers D s chain) : Held s chain := by
  induction h with
  | fresh hs => exact Held.restores ⟨recordsKeyed_new, fun _ => rfl, fun _ => rfl⟩ hs
  | block _ _ _ hcheck hs ih => exact (ih.commitBlock hcheck).restores hs

/-- The names and assets that a list of blocks adds. -/
def namesIn (bs : List (Block P)) : List String :=
  bs.flatMap fun b => b.nameOps.map RegisterNameOp.name

def assetsIn (bs : List (Block P)) : List String :=
  bs.flatMap fun b => b.mintOps.map MintAssetOp.assetId

/-- The registries of a state over those of a state below it. -/
structure GrownOver (s₀ s : ChainState P) (bs : List (Block P)) : Prop where
  names : KeyedMap.Grown nameFixed s₀.nameRegistry s.nameRegistry (namesIn bs)
  assets : KeyedMap.Grown assetFixed s₀.assetRegistry s.assetRegistry (assetsIn bs)

/-- In memory, rolling back uncovers the layers below one after another. -/
theorem Layers.revertBlocks {k : ℕ} (hD : DistinctHashes D) (h : Layers D s chain)
    (hpos : ∀ b ∈ chain.take k, b.height ≠ 0) :
    Layers D (s.revertBlocks (chain.take k)) (chain.drop k) ∧
      GrownOver (s.revertBlocks (chain.take k)) s (chain.take k) := by
  induction k generalizing s chain with
  | zero => exact ⟨h, .refl _ _, .refl _ _⟩
  | succ k ih =>
      cases chain with
      | nil => exact ⟨h, .refl _ _, .refl _ _⟩
      | cons tip rest =>
          rw [List.take_succ_cons, List.forall_mem_cons] at hpos
          obtain ⟨hlayers, hgrown⟩ := ih (h.revertBlock hD hpos.1) hpos.2
          refine ⟨hlayers, ?_⟩
          cases h with
          | @block s₀ _ _ _ c hrest hready hb hcheck hs =>
              have hacc := accepted_of_checkBlock hcheck
              have hrec := recorded_of_checkBlock hcheck
              have hkeyed := hrest.held.keyed
              have hback := hs.revertBlock hD hready hb hpos.1 hacc
              obtain ⟨seen, hnames⟩ := hrec.names
              obtain ⟨seen', hassets⟩ := hrec.assets
              refine ⟨?_, ?_⟩
              · refine hgrown.names.trans ?_
                rw [hback.nameRegistry, hs.nameRegistry, hrec.nameRegistry_eq]
                exact hnames.grown hkeyed.names hacc.names.absent
              · refine hgrown.assets.trans ?_
                rw [hback.assetRegistry, hs.assetRegistry, hrec.assetRegistry_eq]
                exact hassets.grown hkeyed.assets hacc.assets.absent

/-! ## The restarted node

A restarted node rolls back like any other, but finds no record of what a transfer replaced. -/

/-- A state as `load_state` returns it. -/
structure NoSnapshots (s : ChainState P) : Prop where
  names : s.transferSnapshots = ∅
  assets : s.assetTransferSnapshots = ∅

theorem noSnapshots_loadState (d : Storage P) : NoSnapshots d.loadState := ⟨rfl, rfl⟩

/-- Without snapshots, rolling back only erases. -/
theorem NoSnapshots.revertBlock (h : NoSnapshots s) (tip : Block P) :
    NoSnapshots (s.revertBlock tip).1 ∧
      (s.revertBlock tip).1.nameRegistry =
        KeyedMap.eraseAll s.nameRegistry (tip.nameOps.map RegisterNameOp.name) ∧
      (s.revertBlock tip).1.assetRegistry =
        KeyedMap.eraseAll s.assetRegistry (tip.mintOps.map MintAssetOp.assetId) := by
  refine ⟨⟨?_, ?_⟩, ?_, ?_⟩
  · show s.transferSnapshots.erase s.currentHeight = ∅
    rw [h.names]
    rfl
  · show s.assetTransferSnapshots.erase s.currentHeight = ∅
    rw [h.assets]
    rfl
  · show KeyedMap.insertAll _ (tipSnapshot s.transferSnapshots s.currentHeight) = _
    rw [h.names]
    rfl
  · show KeyedMap.insertAll _ (tipSnapshot s.assetTransferSnapshots s.currentHeight) = _
    rw [h.assets]
    rfl

theorem NoSnapshots.revertBlocks (h : NoSnapshots s) (bs : List (Block P)) :
    (s.revertBlocks bs).nameRegistry = KeyedMap.eraseAll s.nameRegistry (namesIn bs) ∧
      (s.revertBlocks bs).assetRegistry = KeyedMap.eraseAll s.assetRegistry (assetsIn bs) := by
  induction bs generalizing s with
  | nil => exact ⟨rfl, rfl⟩
  | cons b bs ih =>
      obtain ⟨hno, hnames, hassets⟩ := h.revertBlock b
      obtain ⟨hn, ha⟩ := ih hno
      rw [hnames, KeyedMap.eraseAll_eraseAll] at hn
      rw [hassets, KeyedMap.eraseAll_eraseAll] at ha
      exact ⟨hn, ha⟩

/-- Collections and mint counts are rolled back from the blocks. -/
theorem revertBlocks_congr (hcol : s.collectionRegistry = t.collectionRegistry)
    (hcount : s.collectionMintCounts = t.collectionMintCounts) (bs : List (Block P)) :
    (s.revertBlocks bs).collectionRegistry = (t.revertBlocks bs).collectionRegistry ∧
      (s.revertBlocks bs).collectionMintCounts = (t.revertBlocks bs).collectionMintCounts := by
  induction bs generalizing s t with
  | nil => exact ⟨hcol, hcount⟩
  | cons b bs ih =>
      refine ih ?_ ?_
      · exact congrArg (KeyedMap.eraseAll · _) hcol
      · exact congrArg (List.foldl Counter.unbump · _) hcount

/-! ## Memory against the restarted node

Both nodes erase the same registrations. They agree on a record that is left if they agree on its holder:
the one in memory has put the old holder back, the restarted one has kept the new. -/

/-- Rolling back `k` blocks succeeds on both states and leaves the same registries. -/
def RollbacksAgree (k : ℕ) (s s' : ChainState P) : Prop :=
  ∃ t t', rollbackTimes k s = some t ∧ rollbackTimes k s' = some t' ∧
    t'.nameRegistry = t.nameRegistry ∧ t'.assetRegistry = t.assetRegistry ∧
    t'.collectionRegistry = t.collectionRegistry ∧
    t'.collectionMintCounts = t.collectionMintCounts

theorem nameRecord_ext (r r' : NameRecord P) (hfix : nameFixed r = nameFixed r')
    (hholder : r.holder = r'.holder) : r = r' := by
  cases r
  cases r'
  simp_all [nameFixed, NameRecord.holder]

theorem assetRecord_ext (r r' : AssetRecord P) (hfix : assetFixed r = assetFixed r')
    (howner : r.ownerPubkey = r'.ownerPubkey) : r = r' := by
  cases r
  cases r'
  simp_all [assetFixed]

/-- **Rolling back after a restart.** Whatever was delivered, and however many blocks are rolled back,
the restarted node ends with the registries of the node in memory if and only if the blocks rolled
back leave the names and assets from below them to their holders. -/
theorem rollbacks_agree_iff {bs : List (Block P)} (hD : DistinctHashes (· ∈ bs)) {k : ℕ}
    (hk : k ≤ (deliver bs).currentHeight.toNat) :
    RollbacksAgree k (deliver bs) (persisted bs).loadState ↔
      HoldersKept (deliver bs).activeChain k := by
  obtain ⟨chain, honDisk, hlayers, hready⟩ := restorable_persisted hD
  obtain ⟨hn, ha, hc, hm, hheight, -⟩ := registries_persisted hD
  rw [honDisk.memory.activeChain_eq hD]
  obtain ⟨hroll, -, -, hpos⟩ := honDisk.memory.rollbackTimes hk
  obtain ⟨hroll', -, -, -⟩ := honDisk.disk.rollbackTimes (hheight ▸ hk)
  obtain ⟨hbelow, hgrown⟩ := hlayers.revertBlocks hD hpos
  obtain ⟨hnames, hassets⟩ := (noSnapshots_loadState (persisted bs)).revertBlocks (chain.take k)
  obtain ⟨hcol, hcount⟩ := revertBlocks_congr hc hm (chain.take k)
  have hheld := hlayers.held
  have hheld' := hbelow.held
  have hnames_iff : KeyedMap.eraseAll (deliver bs).nameRegistry (namesIn (chain.take k)) =
      ((deliver bs).revertBlocks (chain.take k)).nameRegistry ↔
      ∀ name h, nameHolder (chain.drop k) name = some h → nameHolder chain name = some h := by
    rw [hgrown.names.eraseAll_eq_iff, hgrown.names.unchanged_iff nameRecord_ext]
    simp only [hheld.names, hheld'.names]
  have hassets_iff : KeyedMap.eraseAll (deliver bs).assetRegistry (assetsIn (chain.take k)) =
      ((deliver bs).revertBlocks (chain.take k)).assetRegistry ↔
      ∀ id h, assetHolder (chain.drop k) id = some h → assetHolder chain id = some h := by
    rw [hgrown.assets.eraseAll_eq_iff, hgrown.assets.unchanged_iff assetRecord_ext]
    simp only [hheld.assets, hheld'.assets]
  rw [hn] at hnames
  rw [ha] at hassets
  constructor
  · rintro ⟨t, t', ht, ht', htn, hta, -, -⟩
    obtain rfl := Option.some.inj (hroll.symm.trans ht)
    obtain rfl := Option.some.inj (hroll'.symm.trans ht')
    rw [hnames] at htn
    rw [hassets] at hta
    exact ⟨hnames_iff.mp htn, hassets_iff.mp hta⟩
  · intro hkept
    refine ⟨_, _, hroll, hroll', ?_, ?_, hcol, hcount⟩
    · rw [hnames]
      exact hnames_iff.mpr hkept.names
    · rw [hassets]
      exact hassets_iff.mpr hkept.assets

end ChainState

namespace Devnet

open ChainState

/-- A name is registered and changes hands. -/
def handedOver : List (Block crypto) := [genesis, nameBlock, transferBlock]

theorem handedOver_run :
    (zeroHash :: handedOver.map Block.hash).Nodup ∧
      2 ≤ (deliver handedOver).currentHeight.toNat ∧
      (∀ b ∈ (deliver handedOver).activeChain.drop 2, b.nameOps.isEmpty = true ∧
        b.transferOps.isEmpty = true ∧ b.mintOps.isEmpty = true ∧
        b.transferAssetOps.isEmpty = true) ∧
      ((rollbackTimes 1 (deliver handedOver)).bind fun t =>
        (rollbackTimes 1 (persisted handedOver).loadState).map fun t' =>
          decide (t'.nameRegistry.lookup "alice" ≠ t.nameRegistry.lookup "alice")) = some true := by
  decide +kernel

/-- With both blocks rolled back the name is gone on either node. -/
theorem handedOver_two : RollbacksAgree 2 (deliver handedOver) (persisted handedOver).loadState := by
  obtain ⟨hnodup, hk, hnone, -⟩ := handedOver_run
  have hempty : ∀ b ∈ (deliver handedOver).activeChain.drop 2, ∀ x,
      b.nameGiven x = none ∧ b.assetGiven x = none := by
    intro b hb x
    obtain ⟨hn, ht, hm, hta⟩ := hnone b hb
    rw [List.isEmpty_iff] at hn ht hm hta
    simp [Block.nameGiven, Block.assetGiven, hn, ht, hm, hta]
  refine (rollbacks_agree_iff (distinctHashes_of_nodup hnodup) hk).mpr ⟨?_, ?_⟩
  · intro name h hh
    rw [nameHolder, List.findSome?_eq_none_iff.mpr fun b hb => (hempty b hb name).1] at hh
    cases hh
  · intro id h hh
    rw [assetHolder, List.findSome?_eq_none_iff.mpr fun b hb => (hempty b hb id).2] at hh
    cases hh

/-- With the transfer alone rolled back, the restarted node still has the new owner. -/
theorem handedOver_one :
    ∃ t t', rollbackTimes 1 (deliver handedOver) = some t ∧
      rollbackTimes 1 (persisted handedOver).loadState = some t' ∧
      1 ≤ (deliver handedOver).currentHeight.toNat ∧ t'.nameRegistry ≠ t.nameRegistry := by
  obtain ⟨-, hk, -, hdiffer⟩ := handedOver_run
  obtain ⟨t, ht, hdiffer⟩ := Option.bind_eq_some_iff.mp hdiffer
  obtain ⟨t', ht', hdiffer⟩ := Option.map_eq_some_iff.mp hdiffer
  refine ⟨t, t', ht, ht', Nat.le_of_succ_le hk, ?_⟩
  intro heq
  exact of_decide_eq_true hdiffer (by rw [heq])

end Devnet

end Haze
