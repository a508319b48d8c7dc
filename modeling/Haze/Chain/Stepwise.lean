import Haze.Chain.Store
import Haze.Chain.Written
import Haze.Lib.Prog

/-!
# The source's statements, one after another

`applyLinearBlock` and `applyBlock` are functions, so a block that is refused halfway leaves no trace
in them by construction. In the source the state is edited in place. Here are the same functions as
programs that read and write one state, statement by statement and loop by loop, with the candidates
indexed by `[]` as the source does. `applyLinearBlockM_run` and `applyBlockM_run` say that they compute
the functions: no index panics, and every exit comes before the first write or on a copy.
-/

namespace Haze

open Checked Prog

namespace ChainState

variable {P : Crypto}

/-! ## `apply_linear_block`: the checks

The checks of `apply_linear_block` come before its first write. In the order of the source they read the
live registries, fold the operations of the block over copies, and compare the roots of the copies with the
header. -/

/-- Steps 1 to 4e. -/
def checkBlockM (b : Block P) : Prog (ChainState P) (Candidate P) := do
  reads fun s => ensure (s.connects b)
  reads fun s => s.proposerSigned b
  reads fun _ => ensure (b.body.validateWithReward b.reward)
  reads fun _ => ensure (b.header.chainId == chainId)
  reads fun _ => ensure (!spendsLockedOutputEarly b.body.inputs b.height)
  reads fun s => ensure (b.height == 0 || b.body.spent.all (· ∈ s.utxos))
  let nameRegistry ← asks ChainState.nameRegistry
  let named ← b.nameOps.foldlM (fun acc op => reads fun s => s.checkNameOp b.height acc op)
    ⟨b.body.spent.toFinset, ∅, nameRegistry⟩
  let names ← b.transferOps.foldlM (fun acc op => reads fun s => s.checkTransferOp acc op) named
  reads fun _ => ensure (computeRegistryRoot names.registry == b.header.nameRegistryRoot)
  let collectionRegistry ← asks ChainState.collectionRegistry
  let launched ← b.launchCollectionOps.foldlM
    (fun acc op => reads fun s => s.checkLaunchOp b.height acc op) ⟨∅, collectionRegistry⟩
  reads fun _ =>
    ensure (computeCollectionRegistryRoot launched.registry == b.header.collectionRegistryRoot)
  let assetRegistry ← asks ChainState.assetRegistry
  let mintCounts ← asks ChainState.collectionMintCounts
  let minted ← b.mintOps.foldlM
    (fun acc op => reads fun s => s.checkMintOp b launched.registry acc op)
    ⟨names.spent, ∅, assetRegistry, mintCounts, []⟩
  let assets ← b.transferAssetOps.foldlM
    (fun acc op => reads fun s => s.checkTransferAssetOp b acc op) minted
  reads fun _ => ensure (computeAssetRegistryRoot assets.registry == b.header.assetRegistryRoot)
  let activeValidators ← asks ChainState.activeValidators
  let validators ← b.validatorOps.foldlM
    (fun vs op => reads fun s => tryRegisterValidator vs s.utxos op) activeValidators
  return ⟨names.registry, launched.registry, assets.registry, assets.counts, assets.mints,
    validators⟩

/-- The checks only look. -/
theorem checkBlockM_eq (b : Block P) : checkBlockM b = reads fun s => s.checkBlock b := by
  simp only [checkBlockM, asks, foldlM_reads, pure_eq_reads, reads_bind]
  rfl

/-! ## `apply_linear_block`: the writes

After the last check the function writes to the live state, one field after the other. A validator whose
stake is a spent input leaves with it; a transfer looks up the record it replaces before it overwrites it,
because the undo record needs the old one. Those lookups are the only places where the source could panic
here. -/

/-- Spend the inputs of a fee payment and add its outputs. -/
def payFee (tx : Transaction P) : Prog (ChainState P) PUnit := do
  tx.spent.forM fun c => modify fun s => { s with utxos := s.utxos.erase c }
  tx.created.forM fun c => modify fun s => { s with utxos := insert c s.utxos }

-- `kernels.push` and `kernel_excesses.insert`
def recordKernel (kernel : TxKernel P) (s : ChainState P) : ChainState P :=
  { s with
    kernels := s.kernels ++ [kernel]
    kernelExcesses := insert kernel.excess s.kernelExcesses }

/-- Step 6. -/
def spendInputs (b : Block P) : Prog (ChainState P) PUnit :=
  b.bodySpent.forM fun x => modify fun s => { s with
    utxos := s.utxos.erase x
    activeValidators := s.activeValidators.filter fun v => v.commitment ≠ x }

/-- Step 7b. -/
def commitNames (b : Block P) (c : Candidate P) :
    Prog (ChainState P) (List (String × NameRecord P)) :=
  b.nameOps.foldlM (fun acc op => do
    payFee op.feePayment
    let record ← index c.registry op.name
    modify fun s => { s with nameRegistry := s.nameRegistry.insert op.name record }
    return acc ++ [(op.name, record)]) []

/-- Step 7c. -/
def commitTransfers (b : Block P) (c : Candidate P) :
    Prog (ChainState P) (List (String × NameRecord P)) :=
  b.transferOps.foldlM (fun acc op => do
    let registry ← asks ChainState.nameRegistry
    let old ← index registry op.name
    let record ← index c.registry op.name
    modify fun s => { s with nameRegistry := s.nameRegistry.insert op.name record }
    return acc ++ [(op.name, old)]) []

/-- Step 7c-prep. -/
def commitCollections (b : Block P) (c : Candidate P) :
    Prog (ChainState P) (List (String × CollectionRecord P)) :=
  b.launchCollectionOps.foldlM (fun acc op => do
    let record ← index c.collections op.collectionId
    modify fun s => { s with
      collectionRegistry := s.collectionRegistry.insert op.collectionId record }
    return acc ++ [(op.collectionId, record)]) []

/-- Step 7d, the mints. -/
def commitMints (b : Block P) (c : Candidate P) :
    Prog (ChainState P) (List (String × AssetRecord P)) :=
  b.mintOps.foldlM (fun acc op => do
    payFee op.feePayment
    let record ← index c.assets op.assetId
    modify fun s => { s with assetRegistry := s.assetRegistry.insert op.assetId record }
    return acc ++ [(op.assetId, record)]) []

/-- Step 7d, the counts. -/
def commitCounts (c : Candidate P) : Prog (ChainState P) PUnit :=
  c.mints.foldlM (fun _ key => do
    let count ← index c.counts key
    modify fun s => { s with
      collectionMintCounts := s.collectionMintCounts.insert key count }) ()

/-- Step 7e. -/
def commitAssetTransfers (b : Block P) (c : Candidate P) :
    Prog (ChainState P) (List (String × AssetRecord P)) :=
  b.transferAssetOps.foldlM (fun acc op => do
    let registry ← asks ChainState.assetRegistry
    let old ← index registry op.assetId
    let record ← index c.assets op.assetId
    modify fun s => { s with assetRegistry := s.assetRegistry.insert op.assetId record }
    return acc ++ [(op.assetId, old)]) []

/-- Steps 5 to 8. -/
def commitBlockM (b : Block P) (c : Candidate P) : Prog (ChainState P) (AppliedDelta P) := do
  -- 5, 5b
  let before ← asks ChainState.activeValidators
  modify fun s => { s with validatorSnapshots := s.validatorSnapshots.insert b.height before }
  modify fun s => { s with activeValidators := c.validators }
  -- 6, 7
  spendInputs b
  b.body.created.forM fun x => modify fun s => { s with utxos := insert x s.utxos }
  -- 7b, 7c
  let newNames ← commitNames b c
  let transferredNames ← commitTransfers b c
  modify fun s => { s with
    transferSnapshots := saveSnapshot s.transferSnapshots b.height transferredNames }
  -- 7c-prep, 7d
  let newCollections ← commitCollections b c
  let newAssets ← commitMints b c
  commitCounts c
  -- 7e
  let transferredAssets ← commitAssetTransfers b c
  modify fun s => { s with
    assetTransferSnapshots := saveSnapshot s.assetTransferSnapshots b.height transferredAssets }
  -- 8
  b.kernels.forM fun kernel => modify (recordKernel kernel)
  modify fun s => { s with currentHeight := b.height, lastBlockHash := b.hash }
  modify fun s => { s with blocks := s.blocks.insert s.lastBlockHash b }
  let after ← get
  return {
    block := b
    spentCommitments := b.bodySpent ++ b.payments.flatMap Transaction.spent
    newOutputs := b.transactions.flatMap Transaction.outputs
    newKernels := b.kernels
    validatorSnapshot := (b.height, before)
    activeValidatorsAfter := after.activeValidators
    newNames := newNames
    transferredNames := transferredNames
    newAssets := newAssets
    transferredAssets := transferredAssets
    newCollections := newCollections
    collectionMintsThisBlock := c.mints
    height := after.currentHeight
    tipHash := after.lastBlockHash }

/-- `apply_linear_block`, statement by statement. -/
def applyLinearBlockM (b : Block P) : Prog (ChainState P) (AppliedDelta P) := do
  let c ← checkBlockM b
  commitBlockM b c

/-! ## The writes, run

Each group of writes is run once on an arbitrary state. The result is written with the operations on coins
and maps that the model of `commit_block` uses, so the two can be compared field by field. -/

variable {s : ChainState P} {b : Block P} {c : Candidate P}

theorem payFee_run (tx : Transaction P) (s : ChainState P) :
    (payFee tx).run s = .ok () { s with utxos := Coins.apply s.utxos tx.move } := by
  have hspend : ∀ (cs : List (Commitment P)) (s : ChainState P),
      cs.foldl (fun s x => { s with utxos := s.utxos.erase x }) s =
        { s with utxos := Coins.spend s.utxos cs } := by
    intro cs
    induction cs with
    | nil => exact fun _ => rfl
    | cons x cs ih => exact fun s => ih { s with utxos := s.utxos.erase x }
  have hcreate : ∀ (cs : List (Commitment P)) (s : ChainState P),
      cs.foldl (fun s x => { s with utxos := insert x s.utxos }) s =
        { s with utxos := Coins.create s.utxos cs } := by
    intro cs
    induction cs with
    | nil => exact fun _ => rfl
    | cons x cs ih => exact fun s => ih { s with utxos := insert x s.utxos }
  rw [payFee, bind_ok (forM_modify _ _ s), hspend, forM_modify, hcreate]
  rfl

theorem spendInputs_run :
    (spendInputs b).run s = .ok () { s with
      utxos := Coins.spend s.utxos b.bodySpent
      activeValidators := s.activeValidators.filter fun v => v.commitment ∉ b.bodySpent } := by
  -- erasing one input after the other leaves the validators that none of them backs
  have hloop : ∀ (xs : List (Commitment P)) (s : ChainState P),
      xs.foldl (fun s x => { s with
        utxos := s.utxos.erase x
        activeValidators := s.activeValidators.filter fun v => v.commitment ≠ x }) s =
      { s with
        utxos := Coins.spend s.utxos xs
        activeValidators := s.activeValidators.filter fun v => v.commitment ∉ xs } := by
    intro xs
    induction xs with
    | nil =>
        intro s
        simp [Coins.spend]
    | cons x xs ih =>
        intro s
        rw [List.foldl_cons, ih]
        simp only [Coins.spend, List.foldl_cons, List.filter_filter, List.mem_cons, not_or,
          Bool.decide_and, Bool.and_comm]
  rw [spendInputs, forM_modify, hloop]

theorem commitNames_run (h : ∀ k ∈ b.nameOps.map RegisterNameOp.name, k ∈ c.registry) :
    (commitNames b c).run s =
      .ok (KeyedMap.insertFrom c.registry s.nameRegistry (b.nameOps.map RegisterNameOp.name)).2
        { s with
          utxos := Coins.applyAll s.utxos (b.nameOps.map fun op => op.feePayment.move)
          nameRegistry := (KeyedMap.insertFrom c.registry s.nameRegistry
            (b.nameOps.map RegisterNameOp.name)).1 } := by
  refine foldlM_eq b.nameOps
    (fun ys => (KeyedMap.insertFrom c.registry s.nameRegistry (ys.map RegisterNameOp.name)).2)
    (fun ys => { s with
      utxos := Coins.applyAll s.utxos (ys.map fun op : RegisterNameOp P => op.feePayment.move)
      nameRegistry := (KeyedMap.insertFrom c.registry s.nameRegistry
        (ys.map RegisterNameOp.name)).1 }) ?_
  intro ys op hop
  obtain ⟨record, hrecord⟩ := Finmap.mem_iff.mp (h op.name (List.mem_map_of_mem hop))
  rw [bind_ok (payFee_run _ _), bind_ok (index_run hrecord _), bind_ok (modify_run _ _)]
  simp only [List.map_append, List.map_singleton, KeyedMap.insertFrom_append, hrecord,
    Coins.applyAll, List.foldl_append, List.foldl_cons, List.foldl_nil]
  rfl

theorem commitMints_run (h : ∀ k ∈ b.mintOps.map MintAssetOp.assetId, k ∈ c.assets) :
    (commitMints b c).run s =
      .ok (KeyedMap.insertFrom c.assets s.assetRegistry (b.mintOps.map MintAssetOp.assetId)).2
        { s with
          utxos := Coins.applyAll s.utxos (b.mintOps.map fun op => op.feePayment.move)
          assetRegistry := (KeyedMap.insertFrom c.assets s.assetRegistry
            (b.mintOps.map MintAssetOp.assetId)).1 } := by
  refine foldlM_eq b.mintOps
    (fun ys => (KeyedMap.insertFrom c.assets s.assetRegistry (ys.map MintAssetOp.assetId)).2)
    (fun ys => { s with
      utxos := Coins.applyAll s.utxos (ys.map fun op : MintAssetOp P => op.feePayment.move)
      assetRegistry := (KeyedMap.insertFrom c.assets s.assetRegistry
        (ys.map MintAssetOp.assetId)).1 }) ?_
  intro ys op hop
  obtain ⟨record, hrecord⟩ := Finmap.mem_iff.mp (h op.assetId (List.mem_map_of_mem hop))
  rw [bind_ok (payFee_run _ _), bind_ok (index_run hrecord _), bind_ok (modify_run _ _)]
  simp only [List.map_append, List.map_singleton, KeyedMap.insertFrom_append, hrecord,
    Coins.applyAll, List.foldl_append, List.foldl_cons, List.foldl_nil]
  rfl

theorem commitCollections_run
    (h : ∀ k ∈ b.launchCollectionOps.map LaunchCollectionOp.collectionId, k ∈ c.collections) :
    (commitCollections b c).run s =
      .ok (KeyedMap.insertFrom c.collections s.collectionRegistry
          (b.launchCollectionOps.map LaunchCollectionOp.collectionId)).2
        { s with
          collectionRegistry := (KeyedMap.insertFrom c.collections s.collectionRegistry
            (b.launchCollectionOps.map LaunchCollectionOp.collectionId)).1 } := by
  refine foldlM_eq b.launchCollectionOps
    (fun ys => (KeyedMap.insertFrom c.collections s.collectionRegistry
      (ys.map LaunchCollectionOp.collectionId)).2)
    (fun ys => { s with
      collectionRegistry := (KeyedMap.insertFrom c.collections s.collectionRegistry
        (ys.map LaunchCollectionOp.collectionId)).1 }) ?_
  intro ys op hop
  obtain ⟨record, hrecord⟩ := Finmap.mem_iff.mp (h op.collectionId (List.mem_map_of_mem hop))
  rw [bind_ok (index_run hrecord _), bind_ok (modify_run _ _)]
  simp only [List.map_append, List.map_singleton, KeyedMap.insertFrom_append, hrecord]
  rfl

theorem commitCounts_run (h : ∀ k ∈ c.mints, k ∈ c.counts) :
    (commitCounts c).run s = .ok () { s with
      collectionMintCounts := (KeyedMap.insertFrom c.counts s.collectionMintCounts c.mints).1 } := by
  refine foldlM_eq c.mints (fun _ => ())
    (fun ys => { s with
      collectionMintCounts := (KeyedMap.insertFrom c.counts s.collectionMintCounts ys).1 }) ?_
  intro ys key hkey
  obtain ⟨count, hcount⟩ := Finmap.mem_iff.mp (h key hkey)
  rw [bind_ok (index_run hcount _), modify_run]
  simp only [KeyedMap.insertFrom_append, hcount]

theorem commitTransfers_run (hcand : ∀ k ∈ b.transferOps.map TransferNameOp.name, k ∈ c.registry)
    (hold : ∀ k ∈ b.transferOps.map TransferNameOp.name, k ∈ s.nameRegistry) :
    (commitTransfers b c).run s =
      .ok (KeyedMap.replaceFrom c.registry s.nameRegistry (b.transferOps.map TransferNameOp.name)).2
        { s with
          nameRegistry := (KeyedMap.replaceFrom c.registry s.nameRegistry
            (b.transferOps.map TransferNameOp.name)).1 } := by
  refine foldlM_eq b.transferOps
    (fun ys => (KeyedMap.replaceFrom c.registry s.nameRegistry (ys.map TransferNameOp.name)).2)
    (fun ys => { s with
      nameRegistry := (KeyedMap.replaceFrom c.registry s.nameRegistry
        (ys.map TransferNameOp.name)).1 }) ?_
  intro ys op hop
  have hname := List.mem_map_of_mem (f := TransferNameOp.name) hop
  obtain ⟨record, hrecord⟩ := Finmap.mem_iff.mp (hcand op.name hname)
  obtain ⟨old, hlookup⟩ := Finmap.mem_iff.mp
    (KeyedMap.mem_replaceFrom c.registry (hold op.name hname) (ys.map TransferNameOp.name))
  rw [bind_ok (asks_run _ _), bind_ok (index_run hlookup _), bind_ok (index_run hrecord _),
    bind_ok (modify_run _ _)]
  simp only [List.map_append, List.map_singleton, KeyedMap.replaceFrom_append, hlookup, hrecord]
  rfl

theorem commitAssetTransfers_run
    (hcand : ∀ k ∈ b.transferAssetOps.map TransferAssetOp.assetId, k ∈ c.assets)
    (hold : ∀ k ∈ b.transferAssetOps.map TransferAssetOp.assetId, k ∈ s.assetRegistry) :
    (commitAssetTransfers b c).run s =
      .ok (KeyedMap.replaceFrom c.assets s.assetRegistry
          (b.transferAssetOps.map TransferAssetOp.assetId)).2
        { s with
          assetRegistry := (KeyedMap.replaceFrom c.assets s.assetRegistry
            (b.transferAssetOps.map TransferAssetOp.assetId)).1 } := by
  refine foldlM_eq b.transferAssetOps
    (fun ys => (KeyedMap.replaceFrom c.assets s.assetRegistry (ys.map TransferAssetOp.assetId)).2)
    (fun ys => { s with
      assetRegistry := (KeyedMap.replaceFrom c.assets s.assetRegistry
        (ys.map TransferAssetOp.assetId)).1 }) ?_
  -- the record on the candidate side exists by the checks, the old one because earlier transfers only
  -- replace
  intro ys op hop
  have hid := List.mem_map_of_mem (f := TransferAssetOp.assetId) hop
  obtain ⟨record, hrecord⟩ := Finmap.mem_iff.mp (hcand op.assetId hid)
  obtain ⟨old, hlookup⟩ := Finmap.mem_iff.mp
    (KeyedMap.mem_replaceFrom c.assets (hold op.assetId hid)
      (ys.map TransferAssetOp.assetId))
  rw [bind_ok (asks_run _ _), bind_ok (index_run hlookup _), bind_ok (index_run hrecord _),
    bind_ok (modify_run _ _)]
  simp only [List.map_append, List.map_singleton, KeyedMap.replaceFrom_append, hlookup, hrecord]
  rfl

theorem recordKernels_run (kernels : List (TxKernel P)) (s : ChainState P) :
    (kernels.forM fun kernel => modify (recordKernel kernel) : Prog (ChainState P) PUnit).run s =
      .ok () { s with
        kernels := s.kernels ++ kernels
        kernelExcesses := Coins.create s.kernelExcesses (kernels.map TxKernel.excess) } := by
  have hloop : ∀ s : ChainState P, kernels.foldl (fun s kernel => recordKernel kernel s) s =
      { s with
        kernels := s.kernels ++ kernels
        kernelExcesses := Coins.create s.kernelExcesses (kernels.map TxKernel.excess) } := by
    induction kernels with
    | nil =>
        intro s
        simp [Coins.create]
    | cons kernel kernels ih =>
        intro s
        rw [List.foldl_cons, ih]
        simp [recordKernel, Coins.create]
  rw [forM_modify, hloop]

theorem createOutputs_run (xs : List (Commitment P)) (s : ChainState P) :
    (xs.forM fun x => modify fun s => { s with utxos := insert x s.utxos } :
      Prog (ChainState P) PUnit).run s = .ok () { s with utxos := Coins.create s.utxos xs } := by
  have hloop : ∀ s : ChainState P, xs.foldl (fun s x => { s with utxos := insert x s.utxos }) s =
      { s with utxos := Coins.create s.utxos xs } := by
    induction xs with
    | nil => exact fun _ => rfl
    | cons x xs ih => exact fun s => ih { s with utxos := insert x s.utxos }
  rw [forM_modify, hloop]

/-- The coins after the body and the fee payments of both kinds. -/
theorem applyAll_moves (utxos : Finset (Commitment P)) (b : Block P) :
    Coins.applyAll (Coins.applyAll (Coins.create (Coins.spend utxos b.bodySpent) b.body.created)
        (b.nameOps.map fun op => op.feePayment.move)) (b.mintOps.map fun op => op.feePayment.move) =
      Coins.applyAll utxos b.moves := by
  simp only [Block.moves, Block.payments, Coins.applyAll, Coins.apply, List.map_append, List.map_map,
    List.foldl_cons, List.foldl_append]
  rfl

/-- The loops write what the transition says. -/
theorem commitBlockM_run (hcheck : s.checkBlock b = some c) :
    (commitBlockM b c).run s = .ok (s.commitBlock b c).2 (s.commitBlock b c).1 := by
  have hacc := accepted_of_checkBlock hcheck
  obtain ⟨⟨_, hnames⟩, ⟨_, hcollections⟩, _, hassets⟩ := recorded_of_checkBlock hcheck
  have hnew : ∀ k ∈ b.nameOps.map RegisterNameOp.name, k ∈ c.registry :=
    fun k hk => hnames.written.present k (List.mem_append_left _ hk)
  have hmoved : ∀ k ∈ b.transferOps.map TransferNameOp.name, k ∈ c.registry :=
    fun k hk => hnames.written.present k (List.mem_append_right _ hk)
  have hminted : ∀ k ∈ b.mintOps.map MintAssetOp.assetId, k ∈ c.assets :=
    fun k hk => hassets.written.present k (List.mem_append_left _ hk)
  have htraded : ∀ k ∈ b.transferAssetOps.map TransferAssetOp.assetId, k ∈ c.assets :=
    fun k hk => hassets.written.present k (List.mem_append_right _ hk)
  -- a name or an asset that is transferred is still there when its loop comes
  have hname : ∀ k ∈ b.transferOps.map TransferNameOp.name,
      k ∈ (KeyedMap.insertFrom c.registry s.nameRegistry (b.nameOps.map RegisterNameOp.name)).1 :=
    fun k hk => KeyedMap.mem_insertFrom (hacc.names.present k hk) _
  have hasset : ∀ k ∈ b.transferAssetOps.map TransferAssetOp.assetId,
      k ∈ (KeyedMap.insertFrom c.assets s.assetRegistry (b.mintOps.map MintAssetOp.assetId)).1 :=
    fun k hk => KeyedMap.mem_insertFrom (hacc.assets.present k hk) _
  unfold commitBlockM
  rw [bind_ok (asks_run _ _), bind_ok (modify_run _ _), bind_ok (modify_run _ _)]
  dsimp only
  rw [bind_ok spendInputs_run]
  dsimp only
  rw [bind_ok (createOutputs_run _ _)]
  dsimp only
  rw [bind_ok (commitNames_run hnew)]
  dsimp only
  rw [bind_ok (commitTransfers_run hmoved hname), bind_ok (modify_run _ _)]
  dsimp only
  rw [bind_ok (commitCollections_run hcollections.present)]
  dsimp only
  rw [bind_ok (commitMints_run hminted)]
  dsimp only
  rw [bind_ok (commitCounts_run hacc.counts.present)]
  dsimp only
  rw [bind_ok (commitAssetTransfers_run htraded hasset), bind_ok (modify_run _ _)]
  dsimp only
  rw [bind_ok (recordKernels_run _ _), bind_ok (modify_run _ _), bind_ok (modify_run _ _),
    applyAll_moves]
  rfl

/-- The program computes the function: it never panics, and when it refuses it has written
nothing. -/
theorem applyLinearBlockM_computes (b : Block P) :
    Computes (applyLinearBlockM b) fun s => s.applyLinearBlock b := by
  intro s
  rw [applyLinearBlockM, checkBlockM_eq, bind_reads]
  simp only [applyLinearBlock]
  cases hcheck : s.checkBlock b with
  | none => rfl
  | some c => exact commitBlockM_run hcheck

/-! ## `apply_block`

A reorganization runs on a copy of the state. When a step of it fails the copy is dropped, so the function
needs no way back of its own. -/

/-- `rollback_block`: two early exits, then the writes. -/
def rollbackBlockM : Prog (ChainState P) (RollbackDelta P) := do
  reads fun s => ensure (s.currentHeight != 0)
  let tip ← reads fun s => s.blocks.lookup s.lastBlockHash
  let delta ← asks fun s => (s.revertBlock tip).2
  modify fun s => (s.revertBlock tip).1
  return delta

/-- What happens in the sandbox of a reorganization. -/
def reorganizeM (hashes : List Bytes32) (forkBlocks : List (Block P)) :
    Prog (ChainState P) (ApplyResult P) := do
  let rollbacks ← hashes.foldlM (fun acc _ => do
    let delta ← rollbackBlockM
    return acc ++ [delta]) []
  let applies ← forkBlocks.foldlM (fun acc fb => do
    let delta ← applyLinearBlockM fb
    return acc ++ [delta]) []
  return .reorg rollbacks applies

/-- `apply_block`, statement by statement. -/
def applyBlockM (b : Block P) : Prog (ChainState P) (ApplyResult P) := do
  if !b.validate then
    return .rejected
  modify fun s => s.storeBlock b
  if (← asks fun s => s.isLinear b) then
    match ← attempt (applyLinearBlockM b) with
    | some delta => return .linear delta
    | none => return .rejected
  if (← asks fun s => decide (b.height > s.currentHeight)) then
    match ← asks fun s => s.findReorgPath b with
    | some (hashes, forkBlocks) =>
        match ← sandboxed (reorganizeM hashes forkBlocks) with
        | some result => return result
        | none => return .rejected
    | none => return .rejected
  return .rejected

theorem rollbackBlockM_computes : Computes (rollbackBlockM : Prog (ChainState P) _) rollbackBlock := by
  intro s
  rw [rollbackBlockM, bind_reads, rollbackBlock]
  by_cases h0 : s.currentHeight = 0
  · simp [h0, ensure]
  · have hpos : ensure (s.currentHeight != 0) = some () := by simpa using h0
    simp only [hpos, if_neg h0, bind_reads]
    cases s.blocks.lookup s.lastBlockHash with
    | none => rfl
    | some tip => rfl

theorem rollbackAll_yields (hashes : List Bytes32) (acc : List (RollbackDelta P))
    (s : ChainState P) :
    Yields (hashes.foldlM (fun acc _ => do
        let delta ← rollbackBlockM
        return acc ++ [delta]) acc) s
      ((rollbackAll hashes s).map fun r => (r.1, acc ++ r.2)) := by
  induction hashes generalizing acc s with
  | nil =>
      rw [rollbackAll, Option.map_some, List.append_nil]
      exact Yields.pure acc s
  -- one block, then the rest with its delta appended to those collected so far
  | cons hash hashes ih =>
      rw [List.foldlM_cons, bind_assoc]
      have h := (rollbackBlockM_computes.yields s).bind (k := fun delta => do
        let acc' ← (pure (acc ++ [delta]) : Prog (ChainState P) _)
        hashes.foldlM (fun acc _ => do
          let delta ← rollbackBlockM
          return acc ++ [delta]) acc') fun delta s₁ => ih (acc ++ [delta]) s₁
      convert h using 1
      cases hroll : s.rollbackBlock with
      | none => simp [rollbackAll, hroll]
      | some r =>
          cases hrest : rollbackAll hashes r.1 with
          | none => simp [rollbackAll, hroll, hrest]
          | some r' => simp [rollbackAll, hroll, hrest]

theorem applyAll_yields (bs : List (Block P)) (acc : List (AppliedDelta P)) (s : ChainState P) :
    Yields (bs.foldlM (fun acc fb => do
        let delta ← applyLinearBlockM fb
        return acc ++ [delta]) acc) s
      ((applyAll bs s).map fun r => (r.1, acc ++ r.2)) := by
  induction bs generalizing acc s with
  | nil =>
      rw [applyAll, Option.map_some, List.append_nil]
      exact Yields.pure acc s
  | cons b bs ih =>
      -- one block, then the rest with its delta appended to those collected so far
      rw [List.foldlM_cons, bind_assoc]
      have h := ((applyLinearBlockM_computes b).yields s).bind (k := fun delta => do
        let acc' ← (pure (acc ++ [delta]) : Prog (ChainState P) _)
        bs.foldlM (fun acc fb => do
          let delta ← applyLinearBlockM fb
          return acc ++ [delta]) acc') fun delta s₁ => ih (acc ++ [delta]) s₁
      convert h using 1
      cases happly : s.applyLinearBlock b with
      | none => simp [applyAll, happly]
      | some r =>
          cases hrest : applyAll bs r.1 with
          | none => simp [applyAll, happly, hrest]
          | some r' => simp [applyAll, happly, hrest]

theorem reorganizeM_yields (hashes : List Bytes32) (forkBlocks : List (Block P))
    (s : ChainState P) : Yields (reorganizeM hashes forkBlocks) s (s.reorganize hashes forkBlocks) := by
  have h := (rollbackAll_yields hashes [] s).bind (k := fun rollbacks => do
    let applies ← forkBlocks.foldlM (fun acc fb => do
      let delta ← applyLinearBlockM fb
      return acc ++ [delta]) []
    return ApplyResult.reorg rollbacks applies) fun rollbacks s₁ =>
      (applyAll_yields forkBlocks [] s₁).bind fun applies s₂ =>
        Yields.pure (ApplyResult.reorg rollbacks applies) s₂
  unfold reorganizeM
  convert h using 1
  unfold reorganize
  cases rollbackAll hashes s with
  | none => rfl
  | some r =>
      cases happly : applyAll forkBlocks r.1 with
      | none => simp [happly]
      | some r' => simp [happly]

/-- **`apply_block`, statement by statement**, computes the function, on every state. -/
theorem applyBlockM_run (b : Block P) (s : ChainState P) :
    (applyBlockM b).run s = .ok (s.applyBlock b).2 (s.applyBlock b).1 := by
  unfold applyBlockM applyBlock
  -- the branches in the order of the source: invalid, next block, not higher, fork
  by_cases hval : b.validate = true
  swap
  · simp only [hval]
    rfl
  simp only [hval, Bool.not_true, if_false, Bool.false_eq_true]
  -- the block is stored before it is looked at, and storing does not move the tip
  rw [bind_ok (modify_run _ _), bind_ok (asks_run _ _)]
  by_cases hlin : s.isLinear b = true
  · have hlin' : (s.storeBlock b).isLinear b = true := hlin
    rw [if_pos hlin, if_pos hlin', bind_ok (attempt_run (applyLinearBlockM_computes b) _)]
    cases (s.storeBlock b).applyLinearBlock b with
    | none => rfl
    | some r => rfl
  have hlin' : ¬ (s.storeBlock b).isLinear b = true := hlin
  rw [if_neg hlin, if_neg hlin', bind_ok (asks_run _ _)]
  by_cases hheight : b.height > s.currentHeight
  swap
  · have hheight' : ¬ decide (b.height > (s.storeBlock b).currentHeight) = true :=
      fun h => hheight (of_decide_eq_true h)
    rw [if_neg hheight, if_neg hheight']
    rfl
  have hheight' : decide (b.height > (s.storeBlock b).currentHeight) = true :=
    decide_eq_true hheight
  rw [if_pos hheight, if_pos hheight', bind_ok (asks_run _ _)]
  cases (s.storeBlock b).findReorgPath b with
  | none => rfl
  | some path =>
      obtain ⟨hashes, forkBlocks⟩ := path
      dsimp only
      -- what fails in the sandbox leaves the state with the block stored
      rw [bind_ok (sandboxed_run (reorganizeM_yields hashes forkBlocks _))]
      cases (s.storeBlock b).reorganize hashes forkBlocks with
      | none => rfl
      | some r => rfl

/-- **A rejected block changes nothing else.** When `apply_block` rejects a block, the state is as it
was, but for the block in the database; when `apply_linear_block` refuses one, it is as it was. Neither
ends in any other way than by returning. -/
theorem rejected_changes_nothing (s : ChainState P) (b : Block P) :
    (∃ result s', (applyBlockM b).run s = .ok result s' ∧
      (result.isApplied = false → s' = s ∨ s' = { s with blocks := s.blocks.insert b.hash b })) ∧
    ((∃ δ s', (applyLinearBlockM b).run s = .ok δ s') ∨
      (applyLinearBlockM b).run s = .error .rejected s) := by
  refine ⟨⟨_, _, applyBlockM_run b s, ?_⟩, ?_⟩
  · intro hrejected
    rw [applyBlock_rejected hrejected]
    split
    · exact Or.inr rfl
    · exact Or.inl rfl
  · simp only [applyLinearBlockM_computes b s]
    cases s.applyLinearBlock b with
    | none => exact Or.inr rfl
    | some r => exact Or.inl ⟨_, _, rfl⟩

end ChainState

namespace Devnet

open ChainState

/-- An orphan is rejected, and only its entry in the database is new. -/
theorem orphan_changes_nothing :
    ∃ s', (applyBlockM orphan).run (deliver [genesis]) = .ok .rejected s' ∧
      (s' = deliver [genesis] ∨
        s' = { deliver [genesis] with
          blocks := (deliver [genesis]).blocks.insert orphan.hash orphan }) := by
  have hrejected : ((deliver [genesis]).applyBlock orphan).2.isApplied = false := by
    decide +kernel
  generalize deliver [genesis] = s at hrejected ⊢
  obtain ⟨⟨result, s', hrun, hsame⟩, -⟩ := rejected_changes_nothing s orphan
  have hresult : (s.applyBlock orphan).2 = result :=
    (EStateM.Result.ok.inj ((applyBlockM_run orphan s).symm.trans hrun)).1
  rw [hresult] at hrejected
  cases result with
  | rejected => exact ⟨s', hrun, hsame rfl⟩
  | linear δ => cases hrejected
  | reorg rollbacks applies => cases hrejected

end Devnet

end Haze
