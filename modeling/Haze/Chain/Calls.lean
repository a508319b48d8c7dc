import Haze.Chain.Checks
import Haze.Chain.Stakes
import Haze.Storage.Disk

/-!
# Calls on the chain state

Besides `apply_block`, the methods `apply_linear_block`, `rollback_block` and `register_validator` are
public, and tests and tools call them in any order. Two things about the state hold whatever they call.
`kernel_excesses` is the set of the excesses in `kernels`: the list and the set are edited apart, with
another treatment of repeated excesses, but an excess that leaves the set leaves the list with every
kernel that has it. And every list of validators, in office or in a snapshot, has the shape that the
proposer draw counts on.
-/

namespace Haze

open Checked

variable {P : Crypto}

/-- A public call that edits the state. -/
inductive ChainCall (P : Crypto) where
  | applyBlock (b : Block P)
  | applyLinearBlock (b : Block P)
  | rollbackBlock
  | registerValidator (commitment : Commitment P) (value : UInt64) (proof : Signature P)

namespace ChainState

variable {s s' : ChainState P} {b : Block P} {c : Candidate P}

/-- `ChainState::register_validator`: the state afterwards and whether the stake was registered. -/
def registerValidator (s : ChainState P) (commitment : Commitment P) (value : UInt64)
    (proof : Signature P) : ChainState P × Bool :=
  match tryRegisterValidator s.activeValidators s.utxos ⟨commitment, value, proof⟩ with
  | some validators => ({ s with activeValidators := validators }, true)
  | none => (s, false)

/-- The state after a call; one that reports a failure has changed nothing. -/
def call (s : ChainState P) : ChainCall P → ChainState P
  | .applyBlock b => (s.applyBlock b).1
  | .applyLinearBlock b => ((s.applyLinearBlock b).map Prod.fst).getD s
  | .rollbackBlock => (s.rollbackBlock.map Prod.fst).getD s
  | .registerValidator commitment value proof => (s.registerValidator commitment value proof).1

/-- The state after a sequence of calls on a fresh node. -/
def callAll (calls : List (ChainCall P)) : ChainState P :=
  calls.foldl call ChainState.new

/-- **The rule for calls.** What storing, applying and rolling back a block and a registration preserve
holds after every sequence of calls. -/
theorem callAll_invariant {I : ChainState P → Prop} (new : I ChainState.new)
    (store : ∀ {s : ChainState P} {b : Block P}, I s → I (s.storeBlock b))
    (apply : ∀ {s : ChainState P} {b : Block P} {c : Candidate P},
      I s → s.checkBlock b = some c → I (s.commitBlock b c).1)
    (revert : ∀ {s : ChainState P} {tip : Block P}, I s → I (s.revertBlock tip).1)
    (register : ∀ {s : ChainState P} {op : RegisterValidatorOp P} {validators : List (Validator P)},
      I s → tryRegisterValidator s.activeValidators s.utxos op = some validators →
        I { s with activeValidators := validators })
    (calls : List (ChainCall P)) : I (callAll calls) := by
  -- each call is one of the primitive changes, or a sequence of them
  refine foldl_induct new (fun s call hs => ?_) calls
  cases call with
  | applyBlock b => exact applyBlock_invariant store apply revert hs b
  | applyLinearBlock b =>
      show I ((s.applyLinearBlock b).map Prod.fst |>.getD s)
      cases happly : s.applyLinearBlock b with
      | none => exact hs
      | some r => exact applyLinearBlock_invariant apply hs happly
  | rollbackBlock =>
      show I (s.rollbackBlock.map Prod.fst |>.getD s)
      cases hroll : s.rollbackBlock with
      | none => exact hs
      | some r => exact rollbackBlock_invariant revert hs hroll
  | registerValidator commitment value proof =>
      show I (s.registerValidator commitment value proof).1
      unfold registerValidator
      cases htry : tryRegisterValidator s.activeValidators s.utxos ⟨commitment, value, proof⟩ with
      | none => exact hs
      | some validators => exact register hs htry

/-! ## The excesses of the kernels

`kernel_excesses` is a set kept beside the list of kernels, so that a payment is found at once. No call lets
them differ. -/

/-- The set holds the excesses of the list. -/
def MirrorsKernels (s : ChainState P) : Prop :=
  s.kernelExcesses = (s.kernels.map TxKernel.excess).toFinset

theorem MirrorsKernels.commitBlock (h : MirrorsKernels s) : MirrorsKernels (s.commitBlock b c).1 := by
  show Coins.create s.kernelExcesses b.excesses = ((s.kernels ++ b.kernels).map TxKernel.excess).toFinset
  ext e
  rw [Coins.mem_create, show s.kernelExcesses = _ from h, List.map_append, List.mem_toFinset,
    List.mem_toFinset, List.mem_append]
  exact or_comm

theorem MirrorsKernels.revertBlock (h : MirrorsKernels s) (tip : Block P) :
    MirrorsKernels (s.revertBlock tip).1 := by
  show Coins.spend s.kernelExcesses tip.excesses =
    ((removeKernels s.kernels tip.excesses).map TxKernel.excess).toFinset
  ext e
  rw [Coins.mem_spend, show s.kernelExcesses = _ from h, List.mem_toFinset, List.mem_toFinset,
    removeKernels_eq, List.mem_map, List.mem_map]
  -- the list loses every kernel with an excess of the block
  constructor
  · rintro ⟨⟨k, hk, rfl⟩, hgone⟩
    exact ⟨k, List.mem_filter.mpr ⟨hk, decide_eq_true hgone⟩, rfl⟩
  · rintro ⟨k, hk, rfl⟩
    obtain ⟨hk, hgone⟩ := List.mem_filter.mp hk
    exact ⟨⟨k, hk, rfl⟩, of_decide_eq_true hgone⟩

theorem mirrorsKernels_loadState (d : Storage P) : MirrorsKernels d.loadState := by
  show Coins.create ∅ (d.kernels.sortedValues.map TxKernel.excess) = _
  ext e
  rw [Coins.mem_create, List.mem_toFinset]
  exact or_iff_left (Finset.notMem_empty e)

/-- **`kernel_excesses` mirrors `kernels`** after every sequence of calls, and after a restart from any
database. -/
theorem kernelExcesses_mirror :
    (∀ calls : List (ChainCall P),
      (callAll calls).kernelExcesses = ((callAll calls).kernels.map TxKernel.excess).toFinset) ∧
    ∀ d : Storage P,
      d.loadState.kernelExcesses = (d.loadState.kernels.map TxKernel.excess).toFinset := by
  refine ⟨fun calls => ?_, mirrorsKernels_loadState⟩
  apply callAll_invariant (I := MirrorsKernels)
  case new => rfl
  case store => exact id
  case apply => exact fun h _ => h.commitBlock
  case revert => exact fun h => h.revertBlock _
  case register => exact fun h _ => h

/-! ## The validator lists

No stake is in the list twice, and the list has at most as many entries as there are seats, in the snapshots
too. -/

/-- What holds of the validators in office and of every snapshot. -/
structure WellSeated (validators : List (Validator P)) : Prop where
  distinct : DistinctStakes validators
  seats : validators.length ≤ maxActiveValidators
  minStake : ∀ v ∈ validators, minValidatorStake ≤ v.value
  /-- The proof is a signature of the stake by the key behind it. -/
  proofs : ∀ v ∈ validators,
    v.proof.verify (stakeRegistrationMessage v.commitment v.value) (stakeKey v.commitment v.value) = true

theorem WellSeated.nil : WellSeated ([] : List (Validator P)) :=
  ⟨List.nodup_nil, Nat.zero_le _, nofun, nofun⟩

theorem WellSeated.filter {validators : List (Validator P)} (h : WellSeated validators)
    (p : Validator P → Bool) : WellSeated (validators.filter p) where
  distinct := List.Nodup.sublist (List.filter_sublist.map _) h.distinct
  seats := List.length_filter_le p validators |>.trans h.seats
  minStake := fun v hv => h.minStake v (List.mem_of_mem_filter hv)
  proofs := fun v hv => h.proofs v (List.mem_of_mem_filter hv)

/-- What the standalone checks of a registration say about the entry it makes. -/
theorem validateStandalone_registerValidator {op : RegisterValidatorOp P}
    (h : op.validateStandalone.isOk = true) :
    minValidatorStake ≤ op.value ∧
      op.proof.verify (stakeRegistrationMessage op.commitment op.value)
        (stakeKey op.commitment op.value) = true := by
  by_cases hstake : op.value < minValidatorStake
  · rw [RegisterValidatorOp.validateStandalone, if_pos hstake] at h
    cases h
  · rw [RegisterValidatorOp.validateStandalone, if_neg hstake] at h
    cases hproof : op.proof.verify (stakeRegistrationMessage op.commitment op.value)
      (stakeKey op.commitment op.value) with
    | true => exact ⟨UInt64.not_lt.mp hstake, rfl⟩
    | false => simp [hproof, Except.isOk, Except.toBool, throw, throwThe, MonadExceptOf.throw] at h

/-- A known stake keeps its seat, a new one takes a free seat. -/
theorem length_upsertValidator {validators : List (Validator P)} {op : RegisterValidatorOp P}
    (h : validators.length ≤ maxActiveValidators) (hadmits : admitsValidator validators op = true) :
    (upsertValidator validators ⟨op.commitment, op.value, op.proof⟩).length ≤ maxActiveValidators := by
  unfold upsertValidator
  split
  next => rwa [List.length_set]
  next hnone =>
    have hfind : validators.find? (fun v => v.commitment == op.commitment) = none := by
      rw [List.find?_eq_none]
      intro v hv
      simp [List.findIdx?_eq_none_iff.mp hnone v hv]
    unfold admitsValidator at hadmits
    rw [hfind] at hadmits
    rw [List.length_append]
    exact of_decide_eq_true hadmits

theorem WellSeated.tryRegisterValidator {validators validators' : List (Validator P)}
    {utxos : Finset (Commitment P)} {op : RegisterValidatorOp P} (h : WellSeated validators)
    (htry : tryRegisterValidator validators utxos op = some validators') : WellSeated validators' := by
  obtain ⟨hvalid, -, hadmits, rfl⟩ := tryRegisterValidator_eq_some_iff.mp htry
  obtain ⟨hstake, hproof⟩ := validateStandalone_registerValidator hvalid
  refine ⟨h.distinct.upsertValidator _, length_upsertValidator h.seats hadmits, ?_, ?_⟩
  · intro v hv
    rcases mem_upsertValidator hv with hv | rfl
    · exact h.minStake v hv
    · exact hstake
  · intro v hv
    rcases mem_upsertValidator hv with hv | rfl
    · exact h.proofs v hv
    · exact hproof

/-- The validators in office, and those a rollback may put back. -/
structure SeatsFit (s : ChainState P) : Prop where
  active : WellSeated s.activeValidators
  snapshots : ∀ height vs, s.validatorSnapshots.lookup height = some vs → WellSeated vs

theorem SeatsFit.commitBlock (h : SeatsFit s) (hcheck : s.checkBlock b = some c) :
    SeatsFit (s.commitBlock b c).1 := by
  refine ⟨?_, snapshots_commitBlock h.active h.snapshots⟩
  have hregistered : WellSeated c.validators :=
    foldlM_induct (motive := fun _ vs => WellSeated vs) h.active
      (fun _ _ _ _ hvs htry => hvs.tryRegisterValidator htry) (validators_of_checkBlock hcheck)
  exact hregistered.filter _

theorem SeatsFit.revertBlock (h : SeatsFit s) (tip : Block P) : SeatsFit (s.revertBlock tip).1 :=
  ⟨activeValidators_revertBlock WellSeated.nil h.snapshots tip, snapshots_revertBlock h.snapshots tip⟩

/-- **The shape of the validator lists** after every sequence of calls: each stake has one entry, there
are at most as many entries as seats, and every entry has the minimum stake and its own proof. -/
theorem validators_wellSeated (calls : List (ChainCall P)) :
    WellSeated (callAll calls).activeValidators ∧
      ∀ height vs, (callAll calls).validatorSnapshots.lookup height = some vs → WellSeated vs := by
  have hfit : SeatsFit (callAll calls) := by
    apply callAll_invariant (I := SeatsFit)
    case new => exact ⟨WellSeated.nil, nofun⟩
    case store => exact fun h => ⟨h.active, h.snapshots⟩
    case apply => exact fun h hcheck => h.commitBlock hcheck
    case revert => exact fun h => h.revertBlock _
    case register => exact fun h htry => ⟨h.active.tryRegisterValidator htry, h.snapshots⟩
  exact ⟨hfit.active, hfit.snapshots⟩

end ChainState

end Haze
