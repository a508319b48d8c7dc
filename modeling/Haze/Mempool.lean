import Haze.CutThrough
import Haze.Devnet
import Mathlib.Data.List.Sort

/-!
# The mempool (`core/src/mempool.rs`)

Seven queues of items that wait for a block. An item is admitted on what it says about itself: the
mempool has no access to the chain state, and the block builder looks at the items again. The queues
are one structure with its own capacity, check and key each; `Queue` has what they share.

`bincode::serialized_size` is a parameter of everything that asks for the required fee.
-/

namespace Haze

/-! ## Queues

The six queues of operations have one way in: there is room, the operation passes its own check, and nothing
pending has its key. They differ in the check, the key and the cap. For transactions there is a fee to be
paid instead of a key. -/

namespace Queue

variable {α : Type}

/-- Append `x` when there is room, it is valid on its own and nothing pending clashes with it. -/
def add (cap : ℕ) (valid : α → Bool) (clash : α → α → Bool) (queue : List α) (x : α) :
    Option (List α) :=
  if queue.length ≥ cap then none
  else if !valid x then none
  else if queue.any fun y => clash y x then none
  else some (queue ++ [x])

theorem add_eq_some {cap : ℕ} {valid : α → Bool} {clash : α → α → Bool} {queue queue' : List α}
    {x : α} :
    add cap valid clash queue x = some queue' ↔
      (queue.length < cap ∧ valid x = true ∧ (queue.any fun y => clash y x) = false) ∧
        queue' = queue ++ [x] := by
  unfold add
  grind

/-- Everything in a queue has passed its own check. -/
theorem forall_mem_add {cap : ℕ} {valid : α → Bool} {clash : α → α → Bool} {queue queue' : List α}
    {x : α} (h : add cap valid clash queue x = some queue') (hq : ∀ y ∈ queue, valid y = true) :
    ∀ y ∈ queue', valid y = true := by
  obtain ⟨⟨-, hvalid, -⟩, rfl⟩ := add_eq_some.mp h
  rw [List.forall_mem_append]
  exact ⟨hq, by simpa using hvalid⟩

/-- `sort_by_key(Reverse(fee))`: the highest fee first, equal fees in their old order. Every stable
sort gives this list. -/
def byFee (fee : α → UInt64) (queue : List α) : List α :=
  queue.insertionSort fun x y => fee y ≤ fee x

theorem byFee_perm (fee : α → UInt64) (queue : List α) : (byFee fee queue).Perm queue :=
  List.perm_insertionSort _ _

theorem mem_of_mem_drop_byFee {fee : α → UInt64} {queue : List α} {n : ℕ} {x : α}
    (h : x ∈ (byFee fee queue).drop n) : x ∈ queue :=
  (byFee_perm fee queue).mem_iff.mp (List.mem_of_mem_drop h)

end Queue

variable {P : Crypto}

/-! ## Limits and fees

A transaction pays by its size, an operation pays a fixed fee. How many a block takes is fixed for each
queue. -/

def maxNameOpsPerBlock : ℕ := 10
def maxTransferOpsPerBlock : ℕ := 10
def maxMintOpsPerBlock : ℕ := 10
def maxTransferAssetOpsPerBlock : ℕ := 10
def maxLaunchOpsPerBlock : ℕ := 5
def maxValidatorOpsPerBlock : ℕ := 20
def maxTxsPerBlock : ℕ := 50

def maxPendingTxs : ℕ := maxTxsPerBlock * 100
def maxPendingNameOps : ℕ := maxNameOpsPerBlock * 100
def maxPendingTransferOps : ℕ := maxTransferOpsPerBlock * 100
def maxPendingMintOps : ℕ := maxMintOpsPerBlock * 100
def maxPendingTransferAssetOps : ℕ := maxTransferAssetOpsPerBlock * 100
def maxPendingLaunchCollectionOps : ℕ := maxLaunchOpsPerBlock * 100
def maxPendingValidatorOps : ℕ := maxValidatorOpsPerBlock * 100

def minFee : UInt64 := 5
def feePerKb : UInt64 := 5

/-- `REFERENCE_TX_SIZE_BYTES`: one input, one output. -/
def referenceTxSizeBytes : UInt64 := 952

def txFee (tx : Transaction P) : UInt64 :=
  (tx.kernels.map TxKernel.fee).sum

/-- `u64::div_ceil`. -/
def divCeil (a b : UInt64) : UInt64 :=
  if a % b > 0 then a / b + 1 else a / b

def requiredFee (serializedSize : Transaction P → Option UInt64) (tx : Transaction P) : UInt64 :=
  let sizeBytes := (serializedSize tx).getD 0
  let sizeBasedFee := divCeil (feePerKb * sizeBytes) 1000
  max sizeBasedFee minFee

def nameOpFee (op : RegisterNameOp P) : UInt64 := txFee op.feePayment

def mintOpFee (op : MintAssetOp P) : UInt64 := txFee op.feePayment

/-- On the devnet every transaction has the size of a plain payment. -/
def Devnet.serializedSize (_ : Transaction Devnet.crypto) : Option UInt64 := some 952

/-! ## The mempool

What is pending, by kind, each kind in the order of admission. -/

structure Mempool (P : Crypto) where
  pendingTxs : List (Transaction P)
  pendingNameOps : List (RegisterNameOp P)
  pendingTransferOps : List (TransferNameOp P)
  pendingMintOps : List (MintAssetOp P)
  pendingTransferAssetOps : List (TransferAssetOp P)
  pendingLaunchCollectionOps : List (LaunchCollectionOp P)
  pendingValidatorOps : List (RegisterValidatorOp P)

namespace Mempool

/-- `Mempool::new`. -/
def new : Mempool P := ⟨[], [], [], [], [], [], []⟩

variable (m : Mempool P)

/-- `suggested_fee`, which does not look at the mempool. -/
def suggestedFee : UInt64 :=
  max (divCeil (feePerKb * referenceTxSizeBytes) 1000) minFee

/-! ### Admission

The source returns a flag; here a refused item is `none`, and the mempool stays as it was. -/

def addTransaction (serializedSize : Transaction P → Option UInt64) (tx : Transaction P) :
    Option (Mempool P) :=
  if m.pendingTxs.length ≥ maxPendingTxs then none
  else if !tx.validate then none
  else if txFee tx < requiredFee serializedSize tx then none
  else some { m with pendingTxs := m.pendingTxs ++ [tx] }

def addNameOp (op : RegisterNameOp P) : Option (Mempool P) :=
  (Queue.add maxPendingNameOps (fun op => op.validateStandalone.isOk) (fun o op => o.name == op.name)
    m.pendingNameOps op).map fun q => { m with pendingNameOps := q }

-- a transfer is signed by an owner that only the chain state knows
def addTransferOp (op : TransferNameOp P) : Option (Mempool P) :=
  (Queue.add maxPendingTransferOps (fun _ => true) (fun o op => o.name == op.name)
    m.pendingTransferOps op).map fun q => { m with pendingTransferOps := q }

def addMintOp (op : MintAssetOp P) : Option (Mempool P) :=
  (Queue.add maxPendingMintOps (fun op => op.validateStandalone.isOk)
    (fun o op => o.assetId == op.assetId) m.pendingMintOps op).map
    fun q => { m with pendingMintOps := q }

def addTransferAssetOp (op : TransferAssetOp P) : Option (Mempool P) :=
  (Queue.add maxPendingTransferAssetOps (fun _ => true) (fun o op => o.assetId == op.assetId)
    m.pendingTransferAssetOps op).map fun q => { m with pendingTransferAssetOps := q }

def addLaunchCollectionOp (op : LaunchCollectionOp P) : Option (Mempool P) :=
  (Queue.add maxPendingLaunchCollectionOps (fun op => op.validateStandalone.isOk)
    (fun o op => o.collectionId == op.collectionId) m.pendingLaunchCollectionOps op).map
    fun q => { m with pendingLaunchCollectionOps := q }

def addValidatorOp (op : RegisterValidatorOp P) : Option (Mempool P) :=
  (Queue.add maxPendingValidatorOps (fun op => op.validateStandalone.isOk)
    (fun o op => o.commitment == op.commitment) m.pendingValidatorOps op).map
    fun q => { m with pendingValidatorOps := q }

/-! ### Taking items out for a block -/

/-- The transactions that `aggregate` drains: the best paying ones, up to the block's cap. -/
def selectedTxs : List (Transaction P) :=
  (Queue.byFee txFee m.pendingTxs).take maxTxsPerBlock

def aggregate : Option (Transaction P) × Mempool P :=
  if m.pendingTxs.isEmpty then (none, m)
  else
    (some (aggregateAndCutThrough m.selectedTxs),
      { m with pendingTxs := (Queue.byFee txFee m.pendingTxs).drop maxTxsPerBlock })

/-- What `aggregate` leaves, also when there was nothing to take. -/
theorem aggregate_snd :
    m.aggregate.2 =
      { m with pendingTxs := (Queue.byFee txFee m.pendingTxs).drop maxTxsPerBlock } := by
  unfold aggregate
  split
  next hempty =>
    have hnil : m.pendingTxs = [] := List.isEmpty_iff.mp hempty
    cases m
    simp_all [Queue.byFee]
  next => rfl

def takeNameOps : List (RegisterNameOp P) × Mempool P :=
  let sorted := Queue.byFee nameOpFee m.pendingNameOps
  (sorted.take maxNameOpsPerBlock, { m with pendingNameOps := sorted.drop maxNameOpsPerBlock })

def takeTransferOps : List (TransferNameOp P) × Mempool P :=
  (m.pendingTransferOps.take maxTransferOpsPerBlock,
    { m with pendingTransferOps := m.pendingTransferOps.drop maxTransferOpsPerBlock })

def takeMintOps : List (MintAssetOp P) × Mempool P :=
  let sorted := Queue.byFee mintOpFee m.pendingMintOps
  (sorted.take maxMintOpsPerBlock, { m with pendingMintOps := sorted.drop maxMintOpsPerBlock })

def takeTransferAssetOps : List (TransferAssetOp P) × Mempool P :=
  (m.pendingTransferAssetOps.take maxTransferAssetOpsPerBlock,
    { m with
      pendingTransferAssetOps := m.pendingTransferAssetOps.drop maxTransferAssetOpsPerBlock })

def takeLaunchCollectionOps : List (LaunchCollectionOp P) × Mempool P :=
  (m.pendingLaunchCollectionOps.take maxLaunchOpsPerBlock,
    { m with
      pendingLaunchCollectionOps := m.pendingLaunchCollectionOps.drop maxLaunchOpsPerBlock })

def takeValidatorOps : List (RegisterValidatorOp P) × Mempool P :=
  (m.pendingValidatorOps.take maxValidatorOpsPerBlock,
    { m with pendingValidatorOps := m.pendingValidatorOps.drop maxValidatorOpsPerBlock })

/-! ### Dropping what a block has made stale -/

/-- A transaction that spends none of the listed commitments. -/
def untouched (spent : List (Commitment P)) (tx : Transaction P) : Bool :=
  tx.inputs.all fun i => i.commitment ∉ spent

def clearSpent (blockTx : Transaction P) : Mempool P :=
  { m with pendingTxs := m.pendingTxs.filter (untouched blockTx.spent) }

def clearStaleNameOps (registeredNames : List String) (spentCommitments : List (Commitment P)) :
    Mempool P :=
  { m with pendingNameOps := m.pendingNameOps.filter fun op =>
      op.name ∉ registeredNames && untouched spentCommitments op.feePayment }

def clearStaleTransferOps (touchedNames : List String) : Mempool P :=
  { m with pendingTransferOps := m.pendingTransferOps.filter fun op => op.name ∉ touchedNames }

def clearStaleMintOps (mintedAssets : List String) (spentCommitments : List (Commitment P)) :
    Mempool P :=
  { m with pendingMintOps := m.pendingMintOps.filter fun op =>
      op.assetId ∉ mintedAssets && untouched spentCommitments op.feePayment }

def clearStaleTransferAssetOps (touchedAssets : List String) : Mempool P :=
  { m with
    pendingTransferAssetOps := m.pendingTransferAssetOps.filter fun op =>
      op.assetId ∉ touchedAssets }

def clearStaleLaunchCollectionOps (touchedCollections : List String) : Mempool P :=
  { m with
    pendingLaunchCollectionOps := m.pendingLaunchCollectionOps.filter fun op =>
      op.collectionId ∉ touchedCollections }

def clearStaleValidatorOps (touchedCommitments : List (Commitment P)) : Mempool P :=
  { m with pendingValidatorOps := m.pendingValidatorOps.filter fun op =>
      op.commitment ∉ touchedCommitments }

/-! ## Runs

A mempool is only changed through its calls. So what every call keeps holds of every mempool there is. -/

/-- The public operations that change the mempool. -/
inductive PoolCall (P : Crypto) where
  | addTransaction (tx : Transaction P)
  | addNameOp (op : RegisterNameOp P)
  | addTransferOp (op : TransferNameOp P)
  | addMintOp (op : MintAssetOp P)
  | addTransferAssetOp (op : TransferAssetOp P)
  | addLaunchCollectionOp (op : LaunchCollectionOp P)
  | addValidatorOp (op : RegisterValidatorOp P)
  | aggregate
  | takeNameOps
  | takeTransferOps
  | takeMintOps
  | takeTransferAssetOps
  | takeLaunchCollectionOps
  | takeValidatorOps
  | clearSpent (blockTx : Transaction P)
  | clearStaleNameOps (registeredNames : List String) (spentCommitments : List (Commitment P))
  | clearStaleTransferOps (touchedNames : List String)
  | clearStaleMintOps (mintedAssets : List String) (spentCommitments : List (Commitment P))
  | clearStaleTransferAssetOps (touchedAssets : List String)
  | clearStaleLaunchCollectionOps (touchedCollections : List String)
  | clearStaleValidatorOps (touchedCommitments : List (Commitment P))

def call (serializedSize : Transaction P → Option UInt64) (m : Mempool P) : PoolCall P → Mempool P
  | .addTransaction tx => (m.addTransaction serializedSize tx).getD m
  | .addNameOp op => (m.addNameOp op).getD m
  | .addTransferOp op => (m.addTransferOp op).getD m
  | .addMintOp op => (m.addMintOp op).getD m
  | .addTransferAssetOp op => (m.addTransferAssetOp op).getD m
  | .addLaunchCollectionOp op => (m.addLaunchCollectionOp op).getD m
  | .addValidatorOp op => (m.addValidatorOp op).getD m
  | .aggregate => m.aggregate.2
  | .takeNameOps => m.takeNameOps.2
  | .takeTransferOps => m.takeTransferOps.2
  | .takeMintOps => m.takeMintOps.2
  | .takeTransferAssetOps => m.takeTransferAssetOps.2
  | .takeLaunchCollectionOps => m.takeLaunchCollectionOps.2
  | .takeValidatorOps => m.takeValidatorOps.2
  | .clearSpent blockTx => m.clearSpent blockTx
  | .clearStaleNameOps names spent => m.clearStaleNameOps names spent
  | .clearStaleTransferOps names => m.clearStaleTransferOps names
  | .clearStaleMintOps assets spent => m.clearStaleMintOps assets spent
  | .clearStaleTransferAssetOps assets => m.clearStaleTransferAssetOps assets
  | .clearStaleLaunchCollectionOps collections => m.clearStaleLaunchCollectionOps collections
  | .clearStaleValidatorOps commitments => m.clearStaleValidatorOps commitments

/-- A new mempool after a sequence of calls. -/
def run (serializedSize : Transaction P → Option UInt64) (calls : List (PoolCall P)) : Mempool P :=
  calls.foldl (call serializedSize) Mempool.new

theorem run_concat (serializedSize : Transaction P → Option UInt64) (calls : List (PoolCall P))
    (c : PoolCall P) :
    run serializedSize (calls ++ [c]) = (run serializedSize calls).call serializedSize c := by
  simp [run]

/-- What holds of a new mempool and outlasts every call holds after every run. -/
theorem run_induct {Q : Mempool P → Prop} (serializedSize : Transaction P → Option UInt64)
    (hnew : Q Mempool.new) (hcall : ∀ m c, Q m → Q (m.call serializedSize c))
    (calls : List (PoolCall P)) : Q (run serializedSize calls) := by
  induction calls using List.reverseRecOn with
  | nil => exact hnew
  | append_singleton calls c ih =>
      rw [run_concat]
      exact hcall _ c ih

/-- What is pending has passed its own check. -/
structure Admitted (m : Mempool P) : Prop where
  txs : ∀ tx ∈ m.pendingTxs, tx.validate = true
  nameOps : ∀ op ∈ m.pendingNameOps, op.validateStandalone.isOk = true
  mintOps : ∀ op ∈ m.pendingMintOps, op.validateStandalone.isOk = true
  launchOps : ∀ op ∈ m.pendingLaunchCollectionOps, op.validateStandalone.isOk = true
  validatorOps : ∀ op ∈ m.pendingValidatorOps, op.validateStandalone.isOk = true

theorem Admitted.new : Admitted (Mempool.new : Mempool P) :=
  ⟨by simp [Mempool.new], by simp [Mempool.new], by simp [Mempool.new], by simp [Mempool.new],
    by simp [Mempool.new]⟩

variable {m}

theorem Admitted.addTransaction (h : m.Admitted) (serializedSize : Transaction P → Option UInt64)
    (tx : Transaction P) : ((m.addTransaction serializedSize tx).getD m).Admitted := by
  unfold Mempool.addTransaction
  split_ifs with hroom hvalid hpays
  · exact h
  · exact h
  · exact h
  · refine { h with txs := ?_ }
    show ∀ tx' ∈ m.pendingTxs ++ [tx], tx'.validate = true
    rw [List.forall_mem_append]
    exact ⟨h.txs, by simpa using hvalid⟩

/-- An operation was refused, or it went into its queue. -/
theorem getD_map_induct {Q : Mempool P → Prop} {α : Type} {q : Option α} {f : α → Mempool P} (h : Q m)
    (hf : ∀ queue, q = some queue → Q (f queue)) : Q ((q.map f).getD m) := by
  cases q with
  | none => exact h
  | some queue => exact hf queue rfl

/-- No call lets an item in that has not passed its check. -/
theorem Admitted.call (h : m.Admitted) (serializedSize : Transaction P → Option UInt64)
    (c : PoolCall P) : (m.call serializedSize c).Admitted := by
  cases c with
  | addTransaction tx => exact h.addTransaction serializedSize tx
  | addNameOp op =>
      apply getD_map_induct (Q := Admitted) h
      intro queue hq
      exact { h with nameOps := Queue.forall_mem_add hq h.nameOps }
  | addMintOp op =>
      apply getD_map_induct (Q := Admitted) h
      intro queue hq
      exact { h with mintOps := Queue.forall_mem_add hq h.mintOps }
  | addLaunchCollectionOp op =>
      apply getD_map_induct (Q := Admitted) h
      intro queue hq
      exact { h with launchOps := Queue.forall_mem_add hq h.launchOps }
  | addValidatorOp op =>
      apply getD_map_induct (Q := Admitted) h
      intro queue hq
      exact { h with validatorOps := Queue.forall_mem_add hq h.validatorOps }
  -- a transfer has no check of its own, and nothing is said of it
  | addTransferOp | addTransferAssetOp =>
      apply getD_map_induct (Q := Admitted) h
      intro queue _
      exact { h with }
  | aggregate =>
      show m.aggregate.2.Admitted
      unfold Mempool.aggregate
      split
      · exact h
      · exact { h with txs := fun tx htx => h.txs tx (Queue.mem_of_mem_drop_byFee htx) }
  | takeNameOps =>
      exact { h with nameOps := fun op hop => h.nameOps op (Queue.mem_of_mem_drop_byFee hop) }
  | takeMintOps =>
      exact { h with mintOps := fun op hop => h.mintOps op (Queue.mem_of_mem_drop_byFee hop) }
  | takeLaunchCollectionOps =>
      exact { h with launchOps := fun op hop => h.launchOps op (List.mem_of_mem_drop hop) }
  | takeValidatorOps =>
      exact { h with validatorOps := fun op hop => h.validatorOps op (List.mem_of_mem_drop hop) }
  | clearSpent =>
      exact { h with txs := fun tx htx => h.txs tx (List.mem_of_mem_filter htx) }
  | clearStaleNameOps =>
      exact { h with nameOps := fun op hop => h.nameOps op (List.mem_of_mem_filter hop) }
  | clearStaleMintOps =>
      exact { h with mintOps := fun op hop => h.mintOps op (List.mem_of_mem_filter hop) }
  | clearStaleLaunchCollectionOps =>
      exact { h with launchOps := fun op hop => h.launchOps op (List.mem_of_mem_filter hop) }
  | clearStaleValidatorOps =>
      exact { h with validatorOps := fun op hop => h.validatorOps op (List.mem_of_mem_filter hop) }
  | takeTransferOps | takeTransferAssetOps | clearStaleTransferOps | clearStaleTransferAssetOps =>
      exact { h with }

theorem admitted_run (serializedSize : Transaction P → Option UInt64) (calls : List (PoolCall P)) :
    (run serializedSize calls).Admitted :=
  run_induct serializedSize Admitted.new (fun _ c h => h.call serializedSize c) calls

variable (m)

/-! ## Conflicts between pending transactions

Every other queue refuses an item whose key is already pending. `add_transaction` does not look at
the transactions that are pending, nor for an input that the new one lists twice. -/

section Conflicts

/-- Every commitment that a pending transaction spends, with repetitions. -/
def inputs : List (Commitment P) :=
  m.pendingTxs.flatMap Transaction.spent

/-- No commitment is spent twice by what is pending. -/
def ConflictFree : Prop :=
  m.inputs.Nodup

instance : Decidable m.ConflictFree :=
  inferInstanceAs (Decidable m.inputs.Nodup)

variable (serializedSize : Transaction P → Option UInt64)

/-- What `add_transaction` asks for. -/
structure Admissible (tx : Transaction P) : Prop where
  room : m.pendingTxs.length < maxPendingTxs
  valid : tx.validate = true
  pays : requiredFee serializedSize tx ≤ txFee tx

/-- The new transaction repeats no input, neither its own nor one that is pending. -/
structure Separate (tx : Transaction P) : Prop where
  nodup : tx.spent.Nodup
  fresh : ∀ c ∈ tx.spent, c ∉ m.inputs

variable {m serializedSize}

theorem addTransaction_eq_some {m' : Mempool P} {tx : Transaction P} :
    m.addTransaction serializedSize tx = some m' ↔
      m.Admissible serializedSize tx ∧ m' = { m with pendingTxs := m.pendingTxs ++ [tx] } := by
  unfold addTransaction
  constructor
  · intro h
    split_ifs at h with hroom hvalid hpays
    refine ⟨⟨by omega, by simpa using hvalid, UInt64.not_lt.mp hpays⟩, ?_⟩
    exact (Option.some.inj h).symm
  · rintro ⟨⟨hroom, hvalid, hpays⟩, rfl⟩
    rw [if_neg (by omega), if_neg (by simp [hvalid]), if_neg (UInt64.not_lt.mpr hpays)]

theorem conflictFree_append {tx : Transaction P} :
    ConflictFree { m with pendingTxs := m.pendingTxs ++ [tx] } ↔ m.ConflictFree ∧ m.Separate tx := by
  show (inputs _).Nodup ↔ _
  simp only [inputs, List.flatMap_append, List.flatMap_singleton, List.nodup_append']
  constructor
  · rintro ⟨hm, htx, hdisj⟩
    exact ⟨hm, htx, fun c hc hc' => hdisj hc' hc⟩
  · rintro ⟨hm, htx, hdisj⟩
    exact ⟨hm, htx, fun c hc hc' => hdisj c hc' hc⟩

theorem sorted_inputs_perm (m : Mempool P) :
    ((Queue.byFee txFee m.pendingTxs).flatMap Transaction.spent).Perm m.inputs :=
  (Queue.byFee_perm txFee m.pendingTxs).flatMap_right _

theorem ConflictFree.aggregate (h : m.ConflictFree) : m.aggregate.2.ConflictFree := by
  unfold Mempool.aggregate
  split
  · exact h
  · have hsorted := (sorted_inputs_perm m).nodup_iff.mpr h
    refine hsorted.sublist ?_
    exact (List.drop_sublist _ _).flatMap _

theorem ConflictFree.clearSpent (h : m.ConflictFree) (blockTx : Transaction P) :
    (m.clearSpent blockTx).ConflictFree := by
  refine List.Nodup.sublist ?_ h
  exact List.filter_sublist.flatMap _

/-- What `aggregate` hands out spends each coin once, if the pool does. -/
theorem ConflictFree.nodup_aggregate (h : m.ConflictFree) {tx : Transaction P}
    (htx : m.aggregate.1 = some tx) : tx.spent.Nodup := by
  unfold Mempool.aggregate at htx
  split at htx
  · cases htx
  · obtain rfl := Option.some.inj htx
    have hsorted := (sorted_inputs_perm m).nodup_iff.mpr h
    refine List.Nodup.sublist (CutThrough.spent_sublist _) ?_
    refine hsorted.sublist ?_
    exact (List.take_sublist _ _).flatMap _

/-- A transaction that the pool is about to admit is separate from it. -/
def Careful (serializedSize : Transaction P → Option UInt64) (m : Mempool P) : PoolCall P → Prop
  | .addTransaction tx => m.Admissible serializedSize tx → m.Separate tx
  | _ => True

/-- What only touches another queue. -/
theorem conflictFree_congr {m' : Mempool P} (h : m'.pendingTxs = m.pendingTxs) :
    m'.ConflictFree ↔ m.ConflictFree := by
  show (inputs m').Nodup ↔ (inputs m).Nodup
  rw [inputs, inputs, h]

/-- One call keeps the pool free of conflicts exactly when it is careful. -/
theorem conflictFree_call (h : m.ConflictFree) (c : PoolCall P) :
    (m.call serializedSize c).ConflictFree ↔ Careful serializedSize m c := by
  cases c with
  | addTransaction tx =>
      show ((m.addTransaction serializedSize tx).getD m).ConflictFree ↔ _
      cases hadd : m.addTransaction serializedSize tx with
      | none =>
          refine iff_of_true h fun hadm => ?_
          rw [addTransaction_eq_some.mpr ⟨hadm, rfl⟩] at hadd
          cases hadd
      | some m' =>
          obtain ⟨hadm, rfl⟩ := addTransaction_eq_some.mp hadd
          rw [Option.getD_some, conflictFree_append]
          exact ⟨fun hsep _ => hsep.2, fun hsep => ⟨h, hsep hadm⟩⟩
  | aggregate => exact iff_of_true h.aggregate trivial
  -- nothing else adds a transaction, and what takes some out leaves no new conflict
  | clearSpent blockTx => exact iff_of_true (h.clearSpent blockTx) trivial
  | addNameOp | addTransferOp | addMintOp | addTransferAssetOp | addLaunchCollectionOp
  | addValidatorOp =>
      refine iff_of_true ((conflictFree_congr ?_).mpr h) trivial
      exact getD_map_induct (Q := fun m' => m'.pendingTxs = m.pendingTxs) rfl fun _ _ => rfl
  | takeNameOps | takeTransferOps | takeMintOps | takeTransferAssetOps | takeLaunchCollectionOps
  | takeValidatorOps | clearStaleNameOps | clearStaleTransferOps | clearStaleMintOps
  | clearStaleTransferAssetOps | clearStaleLaunchCollectionOps | clearStaleValidatorOps =>
      exact iff_of_true h trivial

variable (serializedSize) in
/-- **The pool is free of conflicts along a run exactly when every admission was careful**, and then
no aggregate lists an input twice. -/
theorem conflictFree_run_iff (calls : List (PoolCall P)) :
    (∀ past, past <+: calls →
        (run serializedSize past).ConflictFree ∧
          ∀ tx, (run serializedSize past).aggregate.1 = some tx → tx.spent.Nodup) ↔
      ∀ past c, past ++ [c] <+: calls → Careful serializedSize (run serializedSize past) c := by
  constructor
  -- a call that is not careful would show in the mempool right after it
  · intro h past c hpast
    have hbefore := (h past ((List.prefix_append _ _).trans hpast)).1
    have hafter := (h _ hpast).1
    rw [run_concat] at hafter
    exact (conflictFree_call hbefore c).mp hafter
  · intro h past hpast
    have hfree : (run serializedSize past).ConflictFree := by
      induction past using List.reverseRecOn with
      | nil => exact List.nodup_nil
      | append_singleton past c ih =>
          rw [run_concat]
          refine (conflictFree_call (ih ?_) c).mpr (h past c hpast)
          exact (List.prefix_append _ _).trans hpast
    exact ⟨hfree, fun tx htx => hfree.nodup_aggregate htx⟩

/-- One payment submitted twice is pending twice, and the aggregate spends its input twice. -/
theorem conflictFree_run_fails :
    let tx := Devnet.payment 1000 11 12 5
    let m := run Devnet.serializedSize [.addTransaction tx, .addTransaction tx]
    ¬ m.ConflictFree ∧ ∃ t ∈ m.aggregate.1, ¬ t.spent.Nodup := by
  decide +kernel

end Conflicts

end Mempool

end Haze
