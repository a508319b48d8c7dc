import Haze.Chain.Pruning
import Haze.Wallet.Restore

/-!
# The block explorer (`api/src/explorer.rs`)

A summary of a block counts the inputs, outputs and kernels it has, and adds what `compact` has taken out
of it, which `prune_meta` remembers. The counts are meant to be those of the block when it was applied.

Kernels are never taken out, but `all_kernels` passes over those that pay for mints, which `all_inputs` and
`all_outputs` do not. Inputs and outputs come out right unless a block is delivered again after something
was taken out of it: it is stored whole then, and what was taken out is counted twice.
-/

namespace Haze

open Checked ChainState

variable {P : Crypto}

/-! ## Summaries

What the explorer shows of a block is computed from the stored copy and the counters that pruning left
beside it. `all_inputs` takes in the fee payments of mints, `all_kernels` does not; the difference is in the
source. -/

namespace Block

variable (b : Block P)

/-- `all_kernels`. -/
def allKernels : List (TxKernel P) :=
  b.body.kernels ++ b.nameOps.flatMap fun op => op.feePayment.kernels

/-- `all_inputs`. -/
def allInputs : List (Input P) :=
  b.body.inputs ++ b.nameOps.flatMap (fun op => op.feePayment.inputs) ++
    b.mintOps.flatMap fun op => op.feePayment.inputs

end Block

structure BlockSummary where
  height : UInt64
  hash : String
  prevHash : String
  timestamp : UInt64
  proposer : String
  numInputs : ℕ
  numOutputs : ℕ
  numKernels : ℕ
  prunedInputs : UInt32
  prunedOutputs : UInt32

structure KernelInfo where
  excess : String
  fee : UInt64

structure BlockDetail where
  height : UInt64
  hash : String
  prevHash : String
  timestamp : UInt64
  nonce : UInt64
  proposer : String
  inputs : List String
  outputs : List String
  kernels : List KernelInfo

def prunedPlaceholder : String := "<pruned via cut-through>"

def toSummary (block : Block P) (pruneMeta : Option BlockPruneMeta) : BlockSummary :=
  let pruned := pruneMeta.getD ⟨0, 0⟩
  { height := block.header.height
    hash := hexEncode block.header.hash.toList
    prevHash := hexEncode block.header.prevHash.toList
    timestamp := block.header.timestamp
    proposer := block.header.validatorCommitment.toHex
    numInputs := block.allInputs.length + pruned.prunedInputs.toNat
    numOutputs := block.allOutputs.length + pruned.prunedOutputs.toNat
    numKernels := block.allKernels.length
    prunedInputs := pruned.prunedInputs
    prunedOutputs := pruned.prunedOutputs }

def toDetail (block : Block P) (pruneMeta : Option BlockPruneMeta) : BlockDetail :=
  let pruned := pruneMeta.getD ⟨0, 0⟩
  { height := block.header.height
    hash := hexEncode block.header.hash.toList
    prevHash := hexEncode block.header.prevHash.toList
    timestamp := block.header.timestamp
    nonce := block.header.nonce
    proposer := block.header.validatorCommitment.toHex
    inputs := (block.allInputs.map fun i => i.commitment.toHex) ++
      List.replicate pruned.prunedInputs.toNat prunedPlaceholder
    outputs := (block.allOutputs.map fun o => o.commitment.toHex) ++
      List.replicate pruned.prunedOutputs.toNat prunedPlaceholder
    kernels := block.allKernels.map fun k => ⟨k.excess.toHex, k.fee⟩ }

/-- The counts that are shown of a block are those of its application. -/
structure ShowsCounts (summary : BlockSummary) (detail : BlockDetail) (δ : AppliedDelta P) : Prop where
  numInputs : summary.numInputs = δ.spentCommitments.length
  numOutputs : summary.numOutputs = δ.newOutputs.length
  numKernels : summary.numKernels = δ.newKernels.length
  inputs : detail.inputs.length = δ.spentCommitments.length
  outputs : detail.outputs.length = δ.newOutputs.length
  kernels : detail.kernels.length = δ.newKernels.length

/-! ## Counts of a whole block

Before any pruning the two can be counted list by list. Outputs always agree. Inputs agree unless the block
is a genesis block with inputs, which are not spent; kernels agree unless the block mints. -/

namespace Block

variable (b : Block P)

theorem length_allInputs : b.allInputs.length =
    b.prunableSpent.length + (b.mintOps.flatMap fun op => op.feePayment.inputs).length := by
  simp [allInputs, prunableSpent, Transaction.spent, List.length_flatMap, add_assoc]

theorem length_allOutputs : b.allOutputs.length =
    b.prunableCreated.length + (b.mintOps.flatMap fun op => op.feePayment.outputs).length := by
  simp [allOutputs, prunableCreated, Transaction.created, List.length_flatMap, add_assoc]

/-- What is recorded of a block beside what is shown are the kernels of its mints. -/
theorem kernels_eq : b.kernels = b.allKernels ++ b.mintOps.flatMap fun op => op.feePayment.kernels := by
  simp [kernels, transactions, payments, allKernels, List.flatMap_append, List.flatMap_map]

theorem transactions_flatMap_outputs : b.transactions.flatMap Transaction.outputs = b.allOutputs := by
  simp [transactions, payments, allOutputs, List.flatMap_append, List.flatMap_map]

/-- A block consumes all inputs it has, but for those in the body of a genesis block. -/
theorem length_spent_iff : (b.bodySpent ++ b.payments.flatMap Transaction.spent).length =
    b.allInputs.length ↔ (b.height = 0 → b.body.inputs = []) := by
  have hpayments : (b.payments.flatMap Transaction.spent).length =
      (b.nameOps.flatMap fun op => op.feePayment.inputs).length +
        (b.mintOps.flatMap fun op => op.feePayment.inputs).length := by
    simp [payments, Transaction.spent, List.length_flatMap, List.flatMap_append, List.flatMap_map]
  have hbody : b.body.spent.length = b.body.inputs.length := List.length_map _
  rw [List.length_append, hpayments, allInputs, List.length_append, List.length_append, add_assoc,
    Nat.add_right_cancel_iff, bodySpent]
  by_cases h0 : b.height = 0
  · rw [if_pos h0, List.length_nil, eq_comm, List.length_eq_zero_iff]
    exact ⟨fun h _ => h, fun h => h h0⟩
  · rw [if_neg h0, hbody]
    exact ⟨fun _ h => absurd h h0, fun _ => rfl⟩

/-- The kernels shown are all there are when nothing is minted: an accepted mint pays with a kernel. -/
theorem length_allKernels_iff (hpayments : ∀ tx ∈ b.payments, ∃ k, tx.kernels = [k]) :
    b.allKernels.length = b.kernels.length ↔ b.mintOps = [] := by
  rw [kernels_eq, List.length_append, eq_comm, Nat.add_eq_left, List.length_eq_zero_iff]
  constructor
  · intro hnone
    refine List.eq_nil_iff_forall_not_mem.mpr fun op hop => ?_
    obtain ⟨k, hk⟩ := hpayments op.feePayment
      (List.mem_append_right _ (List.mem_map_of_mem hop))
    have hmem : k ∈ b.mintOps.flatMap fun op => op.feePayment.kernels :=
      List.mem_flatMap.mpr ⟨op, hop, by rw [hk]; exact List.mem_singleton_self k⟩
    rw [hnone] at hmem
    cases hmem
  · intro hnil
    rw [hnil, List.flatMap_nil]

end Block

/-! ## Counts of what is left of a block

Pruning removes inputs and outputs from the stored copy and adds what it removed to two `u32` counters. As
long as the counters do not wrap, shown and removed together are what the block had. -/

/-- The block `y` is what is left of `x`: the inputs and outputs that are missing have been counted. -/
structure PrunedTo (x : Block P) (m : BlockPruneMeta) (y : Block P) : Prop where
  stripped : y.stripped = x.stripped
  spent : m.prunedInputs.toNat + y.prunableSpent.length = x.prunableSpent.length
  created : m.prunedOutputs.toNat + y.prunableCreated.length = x.prunableCreated.length

theorem PrunedTo.refl (x : Block P) : PrunedTo x ⟨0, 0⟩ x :=
  ⟨rfl, Nat.zero_add _, Nat.zero_add _⟩

/-- The counters are of 32 bits. -/
structure CountsFit (x : Block P) : Prop where
  spent : x.prunableSpent.length < 2 ^ 32
  created : x.prunableCreated.length < 2 ^ 32

theorem length_prunableSpent_prune (y : Block P) (outs ins : List (Commitment P)) :
    (y.prune outs ins).prunableSpent.length ≤ y.prunableSpent.length := by
  have hspent : (y.prune outs ins).prunableSpent = y.prunableSpent.filter (· ∉ ins) := by
    simp [Block.prunableSpent, Block.prune, Transaction.spent, Transaction.prune, List.filter_map,
      List.filter_flatMap, List.flatMap_map, Function.comp_def]
  rw [hspent]
  exact List.length_filter_le _ _

theorem length_prunableCreated_prune (y : Block P) (outs ins : List (Commitment P)) :
    (y.prune outs ins).prunableCreated.length ≤ y.prunableCreated.length := by
  rw [Block.prunableCreated_prune]
  exact List.length_filter_le _ _

-- a counter that is raised by what a list has lost
theorem toNat_add_lost {count : UInt32} {before after total : ℕ} (hle : after ≤ before)
    (htotal : count.toNat + before = total) (hfits : total < 2 ^ 32) :
    (count + UInt32.ofNat (before - after)).toNat + after = total := by
  have hlost : (UInt32.ofNat (before - after)).toNat = before - after :=
    UInt32.toNat_ofNat_of_lt' (by
      show before - after < 2 ^ 32
      omega)
  rw [UInt32.toNat_add, hlost, Nat.mod_eq_of_lt (by omega)]
  omega

theorem PrunedTo.prune {x y : Block P} {m : BlockPruneMeta} (h : PrunedTo x m y) (hfits : CountsFit x)
    (outs ins : List (Commitment P)) : PrunedTo x (m.add y outs ins) (y.prune outs ins) where
  stripped := (y.stripped_prune outs ins).trans h.stripped
  spent := toNat_add_lost (length_prunableSpent_prune y outs ins) h.spent hfits.spent
  created := toNat_add_lost (length_prunableCreated_prune y outs ins) h.created hfits.created

/-- What is shown of a pruned block is counted like the whole block. -/
theorem PrunedTo.counts {x y : Block P} {m : BlockPruneMeta} (h : PrunedTo x m y) :
    y.allInputs.length + m.prunedInputs.toNat = x.allInputs.length ∧
      y.allOutputs.length + m.prunedOutputs.toNat = x.allOutputs.length ∧
      y.allKernels.length = x.allKernels.length := by
  have hmints := congrArg Block.mintOps h.stripped
  replace hmints : y.mintOps = x.mintOps := hmints
  have hkernels : y.allKernels = x.allKernels := by
    have hstripped := congrArg Block.allKernels h.stripped
    simpa [Block.allKernels, Block.stripped, List.flatMap_map] using hstripped
  have hspent := h.spent
  have hcreated := h.created
  refine ⟨?_, ?_, congrArg List.length hkernels⟩
  · rw [Block.length_allInputs, Block.length_allInputs, hmints]
    omega
  · rw [Block.length_allOutputs, Block.length_allOutputs, hmints]
    omega

/-! ## A node that prunes

A node applies blocks and runs compaction passes in any order. A block delivered a second time is stored
again whole, while its counters stay, so such a delivery is ruled out once the block has been pruned. -/

/-- The blocks that were applied, with what their application changed. -/
def ApplyResult.deltas : ApplyResult P → List (AppliedDelta P)
  | .rejected => []
  | .linear delta => [delta]
  | .reorg _ applies => applies

inductive NodeOp (P : Crypto) where
  | applyBlock (b : Block P)
  | compact (order : List Bytes32) (horizon : UInt64)

namespace ChainState

variable {s s' : ChainState P} {b x : Block P}

def perform (s : ChainState P) : NodeOp P → ChainState P
  | .applyBlock b => (s.applyBlock b).1
  | .compact order horizon => (s.compact order horizon).1

/-- No block with the hash of `x` comes in, unless it is `x` and nothing has been taken out of it. -/
def KeepsCopy (x : Block P) (s : ChainState P) : NodeOp P → Prop
  | .applyBlock b => b.validate = true → b.hash = x.hash → b = x ∧ s.prunedFrom x.hash = ⟨0, 0⟩
  | .compact _ _ => True

/-- The blocks are stored under their own hashes. -/
def StoresHashed (s : ChainState P) : Prop :=
  Links.Keyed (blockLinks P) (fun _ => True) s.blocks

/-- The block was accepted on some state, and this is what changed there. -/
def AcceptedAs (δ : AppliedDelta P) : Prop :=
  ∃ (s₀ : ChainState P) (c : Candidate P),
    s₀.checkBlock δ.block = some c ∧ (s₀.commitBlock δ.block c).2 = δ

theorem AcceptedAs.showsCounts_iff {δ : AppliedDelta P} (h : AcceptedAs δ) {m : Option BlockPruneMeta}
    {y : Block P} (hpruned : PrunedTo δ.block (m.getD ⟨0, 0⟩) y) :
    ShowsCounts (toSummary y m) (toDetail y m) δ ↔
      δ.block.mintOps = [] ∧ (δ.block.height = 0 → δ.block.body.inputs = []) := by
  -- the delta was made from this block by `apply_linear_block`, so its lists are those of the block
  obtain ⟨s₀, c, hcheck, hδ⟩ := h
  have hspent : δ.spentCommitments = δ.block.bodySpent ++ δ.block.payments.flatMap Transaction.spent := by
    rw [← hδ]
    rfl
  have houtputs : δ.newOutputs = δ.block.allOutputs := by
    rw [← hδ]
    exact δ.block.transactions_flatMap_outputs
  have hkernels : δ.newKernels = δ.block.kernels := by
    rw [← hδ]
    rfl
  -- an accepted payment carries exactly one kernel, so a mint always adds one to the count
  have hpayments : ∀ tx ∈ δ.block.payments, ∃ k, tx.kernels = [k] :=
    fun tx htx => ((accepted_of_checkBlock hcheck).payments tx htx).oneKernel
  obtain ⟨hins, houts, hks⟩ := hpruned.counts
  have hdetail : (toDetail y m).inputs.length = (toSummary y m).numInputs ∧
      (toDetail y m).outputs.length = (toSummary y m).numOutputs ∧
      (toDetail y m).kernels.length = (toSummary y m).numKernels := by
    simp [toDetail, toSummary]
  have hsummary : (toSummary y m).numInputs = δ.block.allInputs.length ∧
      (toSummary y m).numOutputs = δ.block.allOutputs.length ∧
      (toSummary y m).numKernels = δ.block.allKernels.length := ⟨hins, houts, hks⟩
  obtain ⟨hnumInputs, hnumOutputs, hnumKernels⟩ := hsummary
  rw [← δ.block.length_allKernels_iff hpayments, ← δ.block.length_spent_iff]
  constructor
  · intro hshows
    refine ⟨?_, ?_⟩
    · rw [← hnumKernels, hshows.numKernels, hkernels]
    · rw [← hnumInputs, hshows.numInputs, hspent]
  · rintro ⟨hkernelCount, hinputCount⟩
    have hI : (toSummary y m).numInputs = δ.spentCommitments.length := by
      rw [hnumInputs, hspent, hinputCount]
    have hO : (toSummary y m).numOutputs = δ.newOutputs.length := by
      rw [hnumOutputs, houtputs]
    have hK : (toSummary y m).numKernels = δ.newKernels.length := by
      rw [hnumKernels, hkernels, hkernelCount]
    exact ⟨hI, hO, hK, hdetail.1.trans hI, hdetail.2.1.trans hO, hdetail.2.2.trans hK⟩

/-! ### The store under deliveries -/

theorem insert_of_lookup {V : Type} {m : KeyedMap Bytes32 V} {k : Bytes32} {v : V}
    (h : m.lookup k = some v) : m.insert k v = m := by
  apply Finmap.ext_lookup
  intro k'
  by_cases heq : k' = k
  · rw [heq, Finmap.lookup_insert, h]
  · rw [Finmap.lookup_insert_of_ne _ heq]

/-- Applying a block that is stored leaves the store as it is. -/
theorem applyLinearBlock_stored {δ : AppliedDelta P} (hb : s.blocks.lookup b.hash = some b)
    (happly : s.applyLinearBlock b = some (s', δ)) :
    s'.blocks = s.blocks ∧ s'.pruneMeta = s.pruneMeta ∧ δ.block = b ∧ AcceptedAs δ := by
  obtain ⟨c, hcheck, hcommit⟩ := applyLinearBlock_eq_some_iff.mp happly
  obtain ⟨rfl, rfl⟩ : (s.commitBlock b c).1 = s' ∧ (s.commitBlock b c).2 = δ := by
    rw [hcommit]
    exact ⟨rfl, rfl⟩
  exact ⟨insert_of_lookup hb, rfl, rfl, s, c, hcheck, rfl⟩

theorem applyAll_stored {fork : List (Block P)} {δs : List (AppliedDelta P)}
    (hfork : ∀ f ∈ fork, s.blocks.lookup f.hash = some f)
    (happly : ChainState.applyAll fork s = some (s', δs)) :
    s'.blocks = s.blocks ∧ s'.pruneMeta = s.pruneMeta ∧
      ∀ δ ∈ δs, AcceptedAs δ ∧ s.blocks.lookup δ.block.hash = some δ.block := by
  induction fork generalizing s δs with
  | nil =>
      cases happly
      exact ⟨rfl, rfl, List.forall_mem_nil _⟩
  | cons f fork ih =>
      simp only [ChainState.applyAll, Option.bind_eq_bind, Option.bind_eq_some_iff, Option.pure_def,
        Option.some.injEq] at happly
      obtain ⟨⟨s₁, δ₁⟩, hfirst, ⟨s₂, δ₂⟩, hrest, heq⟩ := happly
      obtain ⟨rfl, rfl⟩ := Prod.mk.inj heq
      obtain ⟨hf, hfork⟩ := List.forall_mem_cons.mp hfork
      obtain ⟨hblocks, hmeta, hblock, haccepted⟩ := applyLinearBlock_stored hf hfirst
      obtain ⟨hblocks', hmeta', hdeltas⟩ := ih (by rwa [hblocks]) hrest
      refine ⟨hblocks'.trans hblocks, hmeta'.trans hmeta, ?_⟩
      rw [hblocks] at hdeltas
      rw [List.forall_mem_cons]
      exact ⟨⟨haccepted, by rwa [hblock]⟩, hdeltas⟩

/-- **A delivery and the store.** A valid block takes its place; nothing else changes, and every block that
is applied is in the store as it was applied. -/
theorem StoresHashed.applyBlock (h : StoresHashed s) (b : Block P) :
    (s.applyBlock b).1.blocks = (if b.validate then s.blocks.insert b.hash b else s.blocks) ∧
      (s.applyBlock b).1.pruneMeta = s.pruneMeta ∧
      ∀ δ ∈ (s.applyBlock b).2.deltas,
        AcceptedAs δ ∧ (s.applyBlock b).1.blocks.lookup δ.block.hash = some δ.block := by
  have hself : (s.storeBlock b).blocks.lookup b.hash = some b := Finmap.lookup_insert _
  have hvalid : (s.applyBlock b).2.isApplied = true → b.validate = true := by
    intro happlied
    cases hval : b.validate with
    | true => rfl
    | false => simp [ChainState.applyBlock, hval, ApplyResult.isApplied] at happlied
  have houtcome := outcome_applyBlock s b
  generalize s.applyBlock b = r at houtcome hvalid ⊢
  cases houtcome with
  | invalid hval =>
      rw [hval]
      exact ⟨rfl, rfl, fun _ hδ => absurd hδ List.not_mem_nil⟩
  | refused hval =>
      rw [hval]
      exact ⟨rfl, rfl, fun _ hδ => absurd hδ List.not_mem_nil⟩
  | linear _ hlinear =>
      obtain ⟨hblocks, hmeta, hblock, haccepted⟩ := applyLinearBlock_stored hself hlinear
      rw [hvalid rfl]
      refine ⟨hblocks, hmeta, ?_⟩
      intro δ hδ
      obtain rfl := List.mem_singleton.mp hδ
      rw [hblock]
      exact ⟨haccepted, by rw [hblocks]; exact hself⟩
  | @reorg hashes fork s₁ s₂ rollbacks applies _ _ hpath hroll happly =>
      -- the fork is read from the store
      have hstored : Links.Keyed (blockLinks P) (fun f => (s.storeBlock b).blocks.lookup f.hash = some f)
          (s.storeBlock b).blocks := by
        intro k f hf
        have hkey := (Links.Keyed.insert h (b := b) trivial k f hf).1
        refine ⟨hkey, ?_⟩
        rw [← hkey] at hf
        exact hf
      have hfork := forall_mem_reorgWalk hstored (by simpa using hself) hpath
      have hrolled : s₁.blocks = (s.storeBlock b).blocks ∧ s₁.pruneMeta = s.pruneMeta :=
        rollbackAll_invariant (I := fun t => t.blocks = (s.storeBlock b).blocks ∧
          t.pruneMeta = s.pruneMeta) (fun ht => ht) ⟨rfl, rfl⟩ hroll
      obtain ⟨hblocks, hmeta, hdeltas⟩ := applyAll_stored (by rwa [hrolled.1]) happly
      rw [hvalid rfl]
      refine ⟨hblocks.trans hrolled.1, hmeta.trans hrolled.2, ?_⟩
      rw [hblocks]
      exact hdeltas

/-! ### What is shown along a run -/

/-- The block is stored, whole or pruned, with what was taken out written down. -/
structure Shows (x : Block P) (s : ChainState P) : Prop where
  hashed : StoresHashed s
  stored : ∃ y, s.blocks.lookup x.hash = some y ∧ PrunedTo x (s.prunedFrom x.hash) y

theorem StoresHashed.perform (h : StoresHashed s) (op : NodeOp P) : StoresHashed (s.perform op) := by
  cases op with
  | applyBlock b =>
      show Links.Keyed (blockLinks P) (fun _ => True) (s.applyBlock b).1.blocks
      rw [(h.applyBlock b).1]
      split
      · exact Links.Keyed.insert h trivial
      · exact h
  | compact order horizon =>
      intro k y hy
      replace hy : (s.compact order horizon).1.blocks.lookup k = some y := hy
      rw [lookup_compact] at hy
      obtain ⟨b, hb, rfl⟩ := Option.map_eq_some_iff.mp hy
      exact h k b hb

/-- Along a run that keeps the copy of `x`, what is shown of it can be added up. -/
theorem Shows.perform (hfits : CountsFit x) (h : Shows x s) {op : NodeOp P} (hop : KeepsCopy x s op) :
    Shows x (s.perform op) := by
  refine ⟨h.hashed.perform op, ?_⟩
  obtain ⟨y, hy, hpruned⟩ := h.stored
  cases op with
  | applyBlock b =>
      obtain ⟨hblocks, hmeta, -⟩ := h.hashed.applyBlock b
      have hmeta : (s.perform (.applyBlock b)).prunedFrom x.hash = s.prunedFrom x.hash := by
        show ((s.applyBlock b).1.pruneMeta.lookup x.hash).getD ⟨0, 0⟩ = _
        rw [hmeta]
        rfl
      show ∃ y, (s.applyBlock b).1.blocks.lookup x.hash = some y ∧ _
      rw [hmeta, hblocks]
      by_cases hnew : b.validate = true ∧ b.hash = x.hash
      · -- `x` is stored again, whole
        obtain ⟨hval, hhash⟩ := hnew
        obtain ⟨rfl, hzero⟩ := hop hval hhash
        rw [if_pos hval, hzero]
        exact ⟨b, Finmap.lookup_insert _, PrunedTo.refl b⟩
      -- another block, or none, is stored; the copy of `x` stays where it is
      · refine ⟨y, ?_, hpruned⟩
        split
        next hval => rw [Finmap.lookup_insert_of_ne _ fun heq => hnew ⟨hval, heq.symm⟩, hy]
        next => exact hy
  -- a pass of compaction rewrites every stored block at once
  | compact order horizon =>
      refine ⟨_, (s.lookup_compact order horizon x.hash).trans (by rw [hy, Option.map_some]), ?_⟩
      show PrunedTo x ((s.compact order horizon).1.prunedFrom x.hash) _
      rw [prunedFrom_compact s order horizon hy]
      exact hpruned.prune hfits _ _

/-- **What the explorer shows of a block.** Let a delivery apply a block of which nothing had been taken
out, and let the node go on without getting a pruned block again. Then the counts shown are those of the
application if and only if the block mints nothing and, at height zero, has no inputs in its body. -/
theorem explorer_counts_iff {before after : List (NodeOp P)} {b : Block P} {δ : AppliedDelta P}
    (hδ : δ ∈ ((before.foldl perform ChainState.new).applyBlock b).2.deltas)
    (hwhole : (before.foldl perform ChainState.new).prunedFrom δ.block.hash = ⟨0, 0⟩)
    (hfits : CountsFit δ.block)
    (hkeeps : Guarded perform (KeepsCopy δ.block)
      ((before.foldl perform ChainState.new).applyBlock b).1 after) :
    ∃ y, ((before ++ .applyBlock b :: after).foldl perform ChainState.new).blocks.lookup δ.block.hash =
        some y ∧
      (ShowsCounts
          (toSummary y (((before ++ .applyBlock b :: after).foldl perform ChainState.new).pruneMeta.lookup
            δ.block.hash))
          (toDetail y (((before ++ .applyBlock b :: after).foldl perform ChainState.new).pruneMeta.lookup
            δ.block.hash)) δ ↔
        δ.block.mintOps = [] ∧ (δ.block.height = 0 → δ.block.body.inputs = [])) := by
  -- before the block the store is keyed by hash, and afterwards it holds the block whole
  have hnew : StoresHashed (ChainState.new : ChainState P) := Links.Keyed.empty
  have hbefore : StoresHashed (before.foldl perform ChainState.new : ChainState P) :=
    foldl_induct hnew (fun _ op h => StoresHashed.perform h op) before
  obtain ⟨-, hmeta, hdeltas⟩ := hbefore.applyBlock b
  obtain ⟨haccepted, hstored⟩ := hdeltas δ hδ
  have hstart : Shows δ.block ((before.foldl perform ChainState.new).applyBlock b).1 := by
    refine ⟨hbefore.perform (.applyBlock b), δ.block, hstored, ?_⟩
    have hsame : ((before.foldl perform ChainState.new).applyBlock b).1.prunedFrom δ.block.hash =
        ⟨0, 0⟩ := by
      rw [prunedFrom, hmeta]
      exact hwhole
    rw [hsame]
    exact PrunedTo.refl δ.block
  have hshows := hkeeps.invariant (fun _ _ h hop => h.perform hfits hop) hstart
  obtain ⟨y, hy, hpruned⟩ := hshows.stored
  rw [List.foldl_append, List.foldl_cons]
  exact ⟨y, hy, haccepted.showsCounts_iff hpruned⟩

end ChainState

namespace Devnet

open ChainState

/-- The large coin of the genesis block is spent at height 2, and taken out. -/
@[irreducible] def spentOps : List (NodeOp crypto) :=
  [.applyBlock rewardBlock, .applyBlock lateSpend,
    .compact [genesis.hash, rewardBlock.hash, lateSpend.hash] 0]

@[irreducible] def spentState : ChainState crypto :=
  (.applyBlock genesis :: spentOps).foldl perform ChainState.new

theorem genesis_shows_counts :
    ∃ δ ∈ ((ChainState.new : ChainState crypto).applyBlock genesis).2.deltas, ∃ y,
      spentState.blocks.lookup δ.block.hash = some y ∧
      (spentState.prunedFrom δ.block.hash).prunedOutputs = 1 ∧
      ShowsCounts (toSummary y (spentState.pruneMeta.lookup δ.block.hash))
        (toDetail y (spentState.pruneMeta.lookup δ.block.hash)) δ := by
  have hrun : (((ChainState.new : ChainState crypto).applyBlock genesis).2.deltas.map fun δ =>
        (decide (δ.block.hash = genesis.hash), δ.block.prunableSpent.length, δ.block.prunableCreated.length,
          δ.block.mintOps.length, δ.block.body.inputs.length)) = [(true, 0, 2, 0, 0)] ∧
      rewardBlock.hash ≠ genesis.hash ∧ lateSpend.hash ≠ genesis.hash ∧
      (spentState.prunedFrom genesis.hash).prunedOutputs = 1 := by
    decide +kernel
  obtain ⟨hdeltas, hreward, hlate, hpruned⟩ := hrun
  obtain ⟨δ, hδ, hcounts⟩ := List.map_eq_singleton_iff.mp hdeltas
  simp only [Prod.mk.injEq, decide_eq_true_eq, List.length_eq_zero_iff] at hcounts
  obtain ⟨hhash, hspent, hcreated, hmints, hinputs⟩ := hcounts
  have hmem : δ ∈ ((ChainState.new : ChainState crypto).applyBlock genesis).2.deltas := by
    rw [hδ]
    exact List.mem_singleton_self δ
  have hfits : CountsFit δ.block := ⟨by rw [hspent]; decide, by rw [hcreated]; decide⟩
  have hkeeps : Guarded perform (KeepsCopy δ.block)
      ((ChainState.new : ChainState crypto).applyBlock genesis).1 spentOps := by
    unfold spentOps
    rw [← hhash] at hreward hlate
    exact ⟨fun _ h => absurd h hreward, fun _ h => absurd h hlate, trivial, trivial⟩
  obtain ⟨y, hy, hshows⟩ := @explorer_counts_iff crypto [] spentOps genesis δ hmem rfl hfits hkeeps
  refine ⟨δ, hmem, y, ?_, ?_, ?_⟩
  · unfold spentState
    exact hy
  · rw [hhash, hpruned]
  · unfold spentState
    exact hshows.mpr ⟨hmints, fun _ => hinputs⟩

/-- A block that mints an asset. -/
@[irreducible] def mintingBlock : Block crypto :=
  mineAssets (linear [genesis]) (coinbase 1 11) []
    [mintOp "relic" 3 (payment genesisStake 42 3 assetMintFee)] []

/-- The kernel that pays for the mint is recorded, and not shown. -/
theorem mintingBlock_undercounted :
    ∃ δ ∈ ((deliver [genesis]).applyBlock mintingBlock).2.deltas, ∃ y,
      (deliver [genesis, mintingBlock]).blocks.lookup δ.block.hash = some y ∧
      ¬ ShowsCounts (toSummary y ((deliver [genesis, mintingBlock]).pruneMeta.lookup δ.block.hash))
        (toDetail y ((deliver [genesis, mintingBlock]).pruneMeta.lookup δ.block.hash)) δ := by
  have hrun : (((deliver [genesis]).applyBlock mintingBlock).2.deltas.map fun δ =>
        (((deliver [genesis, mintingBlock]).blocks.lookup δ.block.hash).map fun y =>
          y.allKernels.length, δ.newKernels.length)) = [(some 1, 2)] := by
    decide +kernel
  obtain ⟨δ, hδ, hcounts⟩ := List.map_eq_singleton_iff.mp hrun
  obtain ⟨hshown, hrecorded⟩ := Prod.mk.inj hcounts
  obtain ⟨y, hy, hshown⟩ := Option.map_eq_some_iff.mp hshown
  refine ⟨δ, by rw [hδ]; exact List.mem_singleton_self δ, y, hy, ?_⟩
  intro hshows
  have hsame : y.allKernels.length = δ.newKernels.length := hshows.numKernels
  rw [hshown, hrecorded] at hsame
  cases hsame

end Devnet

end Haze
