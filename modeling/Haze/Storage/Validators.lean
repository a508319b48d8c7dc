import Haze.Chain.Checks
import Haze.Chain.Stakes
import Haze.Chain.TipState
import Haze.Storage.Coins
import Haze.Storage.Registries

/-!
# Restarting with the same validators

The disk has no validator set either. `load_state` runs the registrations of the stored chain once
more, but against the coins that are there *now*, and drops a validator when a body spends its stake.
On a chain whose registrations were all admitted, this gives the replayed set without the validators
whose stake is gone (`foldr_loadValidators_eq`). Memory keeps such validators: a fee payment spends a
stake without touching the set, and a reorganization restores an old snapshot. Restarting preserves
the set along every run that leaves each stake where it is.
-/

namespace Haze

open Checked Storage

variable {P : Crypto}

/-! ## A registration among the validators that are left

Registering and then leaving out the validators without a stake, or the other way round: either order gives
the same list, since a registration needs its stake to be among the coins. -/

section Staked

variable {utxos : Finset (Commitment P)} {validators : List (Validator P)}

/-- The stake is one of the coins. -/
def Validator.stakedIn (utxos : Finset (Commitment P)) (v : Validator P) : Bool :=
  v.commitment ∈ utxos

theorem upsertValidator_nil (entry : Validator P) : upsertValidator [] entry = [entry] := rfl

theorem upsertValidator_cons (v entry : Validator P) (validators : List (Validator P)) :
    upsertValidator (v :: validators) entry =
      if v.commitment = entry.commitment then entry :: validators
      else v :: upsertValidator validators entry := by
  unfold upsertValidator
  rw [List.findIdx?_cons]
  by_cases heq : v.commitment = entry.commitment
  · simp [heq]
  · simp only [beq_eq_false_iff_ne.mpr heq, Bool.false_eq_true, if_false, if_neg heq]
    cases validators.findIdx? fun v => v.commitment == entry.commitment <;> rfl

/-- Registering a stake that is left. -/
theorem upsertValidator_filter_of_mem (validators : List (Validator P)) {entry : Validator P}
    (h : entry.commitment ∈ utxos) :
    upsertValidator (validators.filter (Validator.stakedIn utxos)) entry =
      (upsertValidator validators entry).filter (Validator.stakedIn utxos) := by
  have hentry : entry.stakedIn utxos = true := decide_eq_true h
  induction validators with
  | nil => rw [List.filter_nil, upsertValidator_nil, List.filter_cons_of_pos hentry, List.filter_nil]
  | cons v validators ih =>
      rw [upsertValidator_cons]
      by_cases heq : v.commitment = entry.commitment
      · have hv : v.stakedIn utxos = true := decide_eq_true (heq ▸ h)
        rw [if_pos heq, List.filter_cons_of_pos hv, List.filter_cons_of_pos hentry,
          upsertValidator_cons, if_pos heq]
      · rw [if_neg heq]
        by_cases hv : v.stakedIn utxos = true
        · rw [List.filter_cons_of_pos hv, List.filter_cons_of_pos hv, upsertValidator_cons,
            if_neg heq, ih]
        · rw [List.filter_cons_of_neg hv, List.filter_cons_of_neg hv, ih]

/-- Registering a stake that is gone changes nothing among those that are left. -/
theorem upsertValidator_filter_of_notMem (validators : List (Validator P)) {entry : Validator P}
    (h : entry.commitment ∉ utxos) :
    (upsertValidator validators entry).filter (Validator.stakedIn utxos) =
      validators.filter (Validator.stakedIn utxos) := by
  have hentry : ¬entry.stakedIn utxos = true := fun hin => h (of_decide_eq_true hin)
  induction validators with
  | nil => rw [upsertValidator_nil, List.filter_cons_of_neg hentry]
  | cons v validators ih =>
      rw [upsertValidator_cons]
      split
      next heq =>
        have hv : ¬v.stakedIn utxos = true := fun hin => h (heq ▸ of_decide_eq_true hin)
        rw [List.filter_cons_of_neg hentry, List.filter_cons_of_neg hv]
      next heq =>
        rw [List.filter_cons, List.filter_cons, ih]

/-- A known stake is known among those that are left, and there are no fewer free seats. -/
theorem admitsValidator_filter {op : RegisterValidatorOp P} (h : op.commitment ∈ utxos)
    (hadmits : admitsValidator validators op = true) :
    admitsValidator (validators.filter (Validator.stakedIn utxos)) op = true := by
  have hfind : (validators.filter (Validator.stakedIn utxos)).find?
        (fun v => v.commitment == op.commitment) =
      validators.find? fun v => v.commitment == op.commitment := by
    rw [List.find?_filter]
    congr 1
    funext v
    by_cases heq : v.commitment = op.commitment
    · simp [heq, Validator.stakedIn, h]
    · simp [heq]
  unfold admitsValidator at hadmits ⊢
  rw [hfind]
  split at hadmits
  next hnone =>
    have hlt : validators.length < maxActiveValidators := of_decide_eq_true hadmits
    exact decide_eq_true (lt_of_le_of_lt (List.length_filter_le _ _) hlt)
  next v hsome => exact hadmits

/-- The loader on a registration that was admitted, against the coins of its time. -/
theorem loadValidatorOp_filter {coins : Finset (Commitment P)} {op : RegisterValidatorOp P}
    {validators' : List (Validator P)}
    (h : tryRegisterValidator validators coins op = some validators') :
    loadValidatorOp utxos (validators.filter (Validator.stakedIn utxos)) op =
      validators'.filter (Validator.stakedIn utxos) := by
  obtain ⟨hvalid, -, hadmits, rfl⟩ := tryRegisterValidator_eq_some_iff.mp h
  unfold loadValidatorOp
  by_cases hmem : op.commitment ∈ utxos
  · have hleft := tryRegisterValidator_eq_some_iff.mpr
      ⟨hvalid, hmem, admitsValidator_filter hmem hadmits, rfl⟩
    rw [hleft, Option.getD_some, upsertValidator_filter_of_mem validators hmem]
  · have hnone : tryRegisterValidator (validators.filter (Validator.stakedIn utxos)) utxos op =
        none := by
      rw [Option.eq_none_iff_forall_ne_some]
      intro vs hvs
      exact hmem (tryRegisterValidator_eq_some_iff.mp hvs).2.1
    rw [hnone, Option.getD_none, upsertValidator_filter_of_notMem validators hmem]

end Staked

/-! ## A chain of registrations

Along a chain the loader meets registrations that were admitted at the time, some of which have lost their
stake since. It refuses those, where the chain has registered and dropped them. -/

/-- The registrations of every block were admitted after the blocks below it. -/
def Registrable : List (Block P) → Prop
  | [] => True
  | b :: rest => (∃ coins validators, b.validatorOps.foldlM
      (fun vs op => tryRegisterValidator vs coins op) (validatorsOf rest) = some validators) ∧
      Registrable rest

theorem foldl_loadValidatorOp_eq {utxos coins : Finset (Commitment P)}
    {ops : List (RegisterValidatorOp P)} {validators validators' : List (Validator P)}
    (h : ops.foldlM (fun vs op => tryRegisterValidator vs coins op) validators = some validators') :
    ops.foldl (loadValidatorOp utxos) (validators.filter (Validator.stakedIn utxos)) =
      validators'.filter (Validator.stakedIn utxos) := by
  refine foldlM_induct (motive := fun ops vs =>
    ops.foldl (loadValidatorOp utxos) (validators.filter (Validator.stakedIn utxos)) =
      vs.filter (Validator.stakedIn utxos)) rfl ?_ h
  intro ops op vs vs' ih hop
  rw [List.foldl_append, ih]
  exact loadValidatorOp_filter hop

/-- The stakes that a body spends, dropped one by one. -/
theorem foldl_drop_spent (ins : List (Input P)) (validators : List (Validator P)) :
    ins.foldl (fun vs input => vs.filter fun v => v.commitment ≠ input.commitment) validators =
      validators.filter fun v => v.commitment ∉ ins.map Input.commitment := by
  induction ins generalizing validators with
  | nil => simp
  | cons input ins ih =>
      rw [List.foldl_cons, ih, List.filter_filter]
      congr 1
      funext v
      rw [← Bool.decide_and, decide_eq_decide, List.map_cons, List.mem_cons]
      tauto

theorem loadValidators_filter {utxos coins : Finset (Commitment P)} {b : Block P}
    {validators registered : List (Validator P)}
    (h : b.validatorOps.foldlM (fun vs op => tryRegisterValidator vs coins op) validators =
      some registered) :
    loadValidators utxos (validators.filter (Validator.stakedIn utxos)) b =
      (nextValidators validators b).filter (Validator.stakedIn utxos) := by
  have hregistered : registered = registerAll validators b.validatorOps :=
    (registered_of_foldlM h).1
  unfold loadValidators nextValidators Block.bodySpent
  rw [foldl_loadValidatorOp_eq h, hregistered]
  by_cases hb : b.height = 0
  · simp [hb]
  · have hpos : b.height > 0 := UInt64.pos_iff_ne_zero.mpr hb
    rw [if_pos hpos, if_neg hb, foldl_drop_spent, List.filter_filter, List.filter_filter]
    apply List.filter_congr
    intro v _
    exact Bool.and_comm _ _

/-- **The loader replays the chain, without the validators whose stake is gone.** -/
theorem foldr_loadValidators_eq {chain : List (Block P)} (utxos : Finset (Commitment P))
    (h : Registrable chain) :
    chain.foldr (fun b vs => loadValidators utxos vs b) [] =
      (validatorsOf chain).filter (Validator.stakedIn utxos) := by
  induction chain with
  | nil => rfl
  | cons b rest ih =>
      obtain ⟨⟨coins, registered, hops⟩, hrest⟩ := h
      rw [List.foldr_cons, ih hrest]
      exact loadValidators_filter hops

namespace ChainState

variable {s : ChainState P} {b : Block P} {c : Candidate P} {chain : List (Block P)}

/-! ## Runs

What the theorem needs of a run: no stake leaves without its validator, and reorganizations put back the
validators that belong to the chain below. -/

/-- The validators are those of the chain, each has its stake there, and each was admitted. -/
structure Seated (chain : List (Block P)) (validators : List (Validator P)) : Prop where
  replayed : validators = validatorsOf chain
  backed : Backed chain validators
  admitted : Registrable chain

/-- A delivery that leaves every stake in place and every reorganization of which puts the validators
back that were there below the blocks it rolls back. -/
def RestartSafe (s : ChainState P) (b : Block P) : Prop :=
  DeliveryApplies KeepsStakes s b ∧ RevertsCleanly s b ∧ ValidatorsKept s b

instance (s : ChainState P) (b : Block P) : Decidable (RestartSafe s b) :=
  inferInstanceAs (Decidable (DeliveryApplies KeepsStakes s b ∧ RevertsCleanly s b ∧
    ValidatorsKept s b))

/-- The coins are those of the chain, and so are the validators and all snapshots of them. -/
structure SeatsHeld (s : ChainState P) (chain : List (Block P)) : Prop where
  coins : HoldsCoins s chain
  validators : Validated Seated s chain

theorem SeatsHeld.commitBlock {D : Block P → Prop} (h : SeatsHeld s chain)
    (htracks : Tracks D s chain) (hcheck : s.checkBlock b = some c) (hkeeps : KeepsStakes s b) :
    SeatsHeld (s.commitBlock b c).1 (b :: chain) := by
  have hacc := accepted_of_checkBlock hcheck
  obtain ⟨hreplayed, hbacked, hadmitted⟩ := h.validators.current
  have hops := validators_of_checkBlock hcheck
  rw [hreplayed] at hops
  refine ⟨h.coins.commitBlock hacc, h.validators.commitBlock htracks hacc ⟨?_, ?_, ?_⟩⟩
  · show nextValidators s.activeValidators b = nextValidators (validatorsOf chain) b
    rw [hreplayed]
  · exact hbacked.nextValidators h.coins hacc hkeeps
  · exact ⟨⟨s.utxos, c.validators, hops⟩, hadmitted⟩

theorem seatsHeld_deliver {bs : List (Block P)} (hD : DistinctHashes (· ∈ bs))
    (hC : EachDelivery RestartSafe bs) :
    ∃ chain, Tracks (· ∈ bs) (deliver bs) chain ∧ SeatsHeld (deliver bs) chain := by
  apply deliver_induct (Q := KeepsStakes) hD hC
  · exact ⟨HoldsCoins.new, ⟨rfl, by simp [Backed, ChainState.new], trivial⟩, Finmap.lookup_empty _⟩
  · exact fun hsafe => hsafe.1
  · intro s chain b _ _ h
    exact ⟨⟨h.coins.utxos, h.coins.covered⟩, ⟨h.validators.current, h.validators.history⟩⟩
  · exact fun htracks h _ hcheck hkeeps => h.commitBlock htracks hcheck hkeeps
  · intro s chain b htracks hsafe r hr hrolls h
    obtain ⟨-, hclean, hkept⟩ := hsafe
    have hclean' := hclean r hr
    rw [htracks.activeChain_eq hD] at hclean'
    refine ⟨h.coins.revertBlocks hrolls.pos hclean', h.validators.revertBlocks hrolls ?_⟩
    exact fun hn => h.validators.snapshotBelow_kept hrolls hn (hkept r hr hn)

/-- What a restart makes of the validators of a chain that memory and disk rest on. -/
theorem loadState_activeValidators {bs : List (Block P)} (hD : DistinctHashes (· ∈ bs))
    (htracks : Tracks (· ∈ bs) (deliver bs) chain) (h : Registrable chain) :
    (persisted bs).loadState.activeValidators =
      (validatorsOf chain).filter (Validator.stakedIn (persisted bs).loadState.utxos) := by
  obtain ⟨chain', hdisk⟩ := restorable_persisted hD
  obtain rfl : chain' = chain := by
    rw [← htracks.activeChain_eq hD, hdisk.onDisk.memory.activeChain_eq hD]
  rw [← foldr_loadValidators_eq _ h]
  simp only [loadState, hdisk.onDisk.chain_eq hD, List.foldl_reverse]

/-- **Restarting preserves the validators**, their order and their values, after every run of
deliveries that leave the stakes in place. -/
theorem validators_persisted {bs : List (Block P)} (hD : DistinctHashes (· ∈ bs))
    (hC : EachDelivery RestartSafe bs) :
    (persisted bs).loadState.activeValidators = (deliver bs).activeValidators := by
  obtain ⟨chain, htracks, h⟩ := seatsHeld_deliver hD hC
  obtain ⟨hreplayed, hbacked, hadmitted⟩ := h.validators.current
  rw [loadState_activeValidators hD htracks hadmitted, ← hreplayed, List.filter_eq_self]
  intro v hv
  -- a stake of the chain is a coin in memory, hence one on disk
  have hcoin : v.commitment ∈ (deliver bs).utxos := by
    rw [h.coins.utxos]
    exact hbacked v hv
  exact decide_eq_true (utxos_subset_persisted bs hcoin)

end ChainState

namespace Devnet

open ChainState

theorem stakedFork_restarts :
    (deliver stakedFork).activeValidators ≠ [] ∧
      (persisted stakedFork).loadState.activeValidators = (deliver stakedFork).activeValidators := by
  have hrun : (zeroHash :: stakedFork.map Block.hash).Nodup ∧
      EachDelivery RestartSafe stakedFork ∧ (deliver stakedFork).activeValidators ≠ [] := by
    decide +kernel
  obtain ⟨hnodup, hsafe, hstaked⟩ := hrun
  exact ⟨hstaked, validators_persisted (distinctHashes_of_nodup hnodup) hsafe⟩

/-- The one validator has spent its stake on a name: memory keeps it, the restarted node does not. -/
theorem spentStake_restart_drops :
    (∀ i < 4, (deliver (spentStake.take i)).activeValidators.length ≤ 1) ∧
      (persisted spentStake).loadState.activeValidators ≠ (deliver spentStake).activeValidators := by
  decide +kernel

end Devnet

end Haze
