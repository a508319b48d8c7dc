import Haze.Chain.Ledger

/-!
# Stakes and the coins behind them

A validator signs with the key of a coin, and is dropped when that coin is spent — by a block's body.
A fee payment spends coins without looking at the validators. A reorganization restores a snapshot
that is one block older than the coins it restores, and may lose coins on the way. These are the three
ways in which a validator can be left without its stake; along a run that takes none of them, every
active validator is backed by an unspent coin.
-/

namespace Haze

namespace ChainState

variable {P : Crypto} {s : ChainState P} {b : Block P} {c : Candidate P} {chain : List (Block P)}

/-- The stakes of the validators are coins of the chain. -/
def Backed (chain : List (Block P)) (validators : List (Validator P)) : Prop :=
  ∀ v ∈ validators, v.commitment ∈ coinsOf chain

/-- A stake that the body does not spend is not spent for good by a fee payment either. -/
def KeepsStakes (s : ChainState P) (b : Block P) : Prop :=
  ∀ v ∈ registerAll s.activeValidators b.validatorOps, v.commitment ∉ b.bodySpent →
    ¬ Coins.Lost v.commitment b.moves

/-- If the delivery rolls back to a block, that block did not spend a stake of the snapshot that is
restored, the one taken before it. -/
def RestoresStakes (s : ChainState P) (b : Block P) : Prop :=
  ∀ r ∈ s.reorgOf b, r.1 ≠ 0 → ∀ b' ∈ (s.activeChain.drop r.1).head?,
    ∀ v ∈ s.snapshotBelow r.1, ¬ Coins.Lost v.commitment b'.moves

/-- A delivery that leaves every stake in place. -/
def StakeSafe (s : ChainState P) (b : Block P) : Prop :=
  DeliveryApplies KeepsStakes s b ∧ RevertsCleanly s b ∧ RestoresStakes s b

instance (s : ChainState P) (b : Block P) : Decidable (KeepsStakes s b) :=
  inferInstanceAs (Decidable (∀ v ∈ registerAll s.activeValidators b.validatorOps,
    v.commitment ∉ b.bodySpent → ¬ Coins.Lost v.commitment b.moves))

instance (s : ChainState P) (b : Block P) : Decidable (RestoresStakes s b) :=
  inferInstanceAs (Decidable (∀ r ∈ s.reorgOf b, r.1 ≠ 0 → ∀ b' ∈ (s.activeChain.drop r.1).head?,
    ∀ v ∈ s.snapshotBelow r.1, ¬ Coins.Lost v.commitment b'.moves))

instance (s : ChainState P) (b : Block P) : Decidable (StakeSafe s b) :=
  inferInstanceAs (Decidable (DeliveryApplies KeepsStakes s b ∧ RevertsCleanly s b ∧
    RestoresStakes s b))

theorem Backed.nextValidators (h : Backed chain s.activeValidators) (hcoins : HoldsCoins s chain)
    (hacc : Accepted s b c) (hkeeps : KeepsStakes s b) :
    Backed (b :: chain) (nextValidators s.activeValidators b) := by
  intro v hv
  obtain ⟨hreg, hspent⟩ := List.mem_filter.mp hv
  have hmem : v.commitment ∈ coinsOf chain := by
    rcases mem_registerAll hreg with hold | ⟨op, hop, heq⟩
    · exact h v hold
    · rw [heq, ← hcoins.utxos]
      exact hacc.stakes op hop
  have hkept : ¬ Coins.Lost v.commitment b.moves := hkeeps v hreg (of_decide_eq_true hspent)
  exact Coins.mem_applyAll.mpr ⟨hkept, Or.inl hmem⟩

/-- The coins are those of the chain, and every validator set on record is backed. -/
structure StakesHeld (s : ChainState P) (chain : List (Block P)) : Prop where
  coins : HoldsCoins s chain
  validators : Validated Backed s chain

theorem StakesHeld.revertBlocks {D : Block P → Prop} {n : ℕ} (h : StakesHeld s chain)
    (hrolls : RollsBack D s chain n) (hclean : CleanTop n chain)
    (hkept : n ≠ 0 → ∀ b' ∈ (chain.drop n).head?, ∀ v ∈ s.snapshotBelow n,
      ¬ Coins.Lost v.commitment b'.moves) :
    StakesHeld (s.revertBlocks (chain.take n)) (chain.drop n) := by
  refine ⟨h.coins.revertBlocks hrolls.pos hclean, h.validators.revertBlocks hrolls ?_⟩
  intro hn v hv
  cases hdrop : chain.drop n with
  | nil =>
      rw [h.validators.snapshotBelow_nil hrolls hdrop] at hv
      cases hv
  | cons b' rest =>
      -- backed before `b'`, and `b'` did not spend it
      have hmem : v.commitment ∈ coinsOf rest := h.validators.snapshotBelow_cons hrolls hdrop v hv
      have hnot : ¬ Coins.Lost v.commitment b'.moves := hkept hn b' (by rw [hdrop]; rfl) v hv
      exact Coins.mem_applyAll.mpr ⟨hnot, Or.inl hmem⟩

/-- **Stakes stay backed** along every run of stake-safe deliveries, reorganizations included. -/
theorem stakes_backed {bs : List (Block P)} (hD : DistinctHashes (· ∈ bs))
    (hC : EachDelivery StakeSafe bs) :
    ∀ v ∈ (deliver bs).activeValidators, v.commitment ∈ (deliver bs).utxos := by
  -- run invariant: the coins are those of the chain, and the validators and their undo records stay among
  -- them
  obtain ⟨chain, -, h⟩ : ∃ chain, Tracks (· ∈ bs) (deliver bs) chain ∧
      StakesHeld (deliver bs) chain := by
    apply deliver_induct (Q := KeepsStakes) hD hC
    · exact ⟨HoldsCoins.new, by simp [Backed, ChainState.new], Finmap.lookup_empty _⟩
    · exact fun hsafe => hsafe.1
    · exact fun _ _ h => ⟨⟨h.coins.utxos, h.coins.covered⟩, ⟨h.validators.current, h.validators.history⟩⟩
    -- applying a block
    · intro s chain b c htracks h _ hcheck hkeeps
      have hacc := accepted_of_checkBlock hcheck
      have hnext := h.validators.current.nextValidators h.coins hacc hkeeps
      exact ⟨h.coins.commitBlock hacc, h.validators.commitBlock htracks hacc hnext⟩
    -- taking blocks back: the condition on a reorganization was asked for the blocks that are rolled back
    · intro s chain b htracks hsafe r hr hrolls h
      obtain ⟨-, hclean, hrestores⟩ := hsafe
      have hchain := htracks.activeChain_eq hD
      have hclean' := hclean r hr
      have hrestores' := hrestores r hr
      rw [hchain] at hclean' hrestores'
      exact h.revertBlocks hrolls hclean' hrestores'
  intro v hv
  rw [h.coins.utxos]
  exact h.validators.current v hv

/-! ## One entry for each stake

`active_validators` is a list, and registration replaces an entry with the same stake in place. Undo records
are copies of the whole list, so they too name each stake once; with this a rollback restores a list that is
again free of doubles. -/

/-- No two validators stake the same coin. -/
def DistinctStakes (validators : List (Validator P)) : Prop :=
  (validators.map Validator.commitment).Nodup

theorem DistinctStakes.upsertValidator {validators : List (Validator P)}
    (h : DistinctStakes validators) (entry : Validator P) :
    DistinctStakes (upsertValidator validators entry) := by
  unfold Haze.upsertValidator
  split
  next pos hpos =>
    -- the entry takes the place of one with the same commitment
    obtain ⟨hlt, hsame, -⟩ := List.findIdx?_eq_some_iff_getElem.mp hpos
    have hmap : (validators.set pos entry).map Validator.commitment =
        validators.map Validator.commitment := by
      rw [List.map_set, ← beq_iff_eq.mp hsame, ← List.getElem_map Validator.commitment,
        List.set_getElem_self]
      simpa using hlt
    show ((validators.set pos entry).map Validator.commitment).Nodup
    rw [hmap]
    exact h
  next hnone =>
    show ((validators ++ [entry]).map Validator.commitment).Nodup
    rw [List.map_append, List.map_singleton, List.nodup_append']
    refine ⟨h, List.nodup_singleton _, ?_⟩
    intro x hx hx'
    obtain rfl := List.mem_singleton.mp hx'
    obtain ⟨v, hv, heq⟩ := List.mem_map.mp hx
    have := List.findIdx?_eq_none_iff.mp hnone v hv
    rw [heq, beq_self_eq_true] at this
    cases this

theorem DistinctStakes.registerAll {validators : List (Validator P)}
    (h : DistinctStakes validators) (ops : List (RegisterValidatorOp P)) :
    DistinctStakes (registerAll validators ops) := by
  induction ops generalizing validators with
  | nil => exact h
  | cons op ops ih => exact ih (h.upsertValidator _)

section Snapshots

variable {I : List (Validator P) → Prop}

/-- The snapshot that a block adds is of the validators it finds in office. -/
theorem snapshots_commitBlock (hactive : I s.activeValidators)
    (hsnapshots : ∀ height vs, s.validatorSnapshots.lookup height = some vs → I vs) :
    ∀ height vs, (s.commitBlock b c).1.validatorSnapshots.lookup height = some vs → I vs := by
  intro height vs hvs
  have hlookup : (s.validatorSnapshots.insert b.height s.activeValidators).lookup height =
      some vs := hvs
  by_cases heq : height = b.height
  · rw [heq, Finmap.lookup_insert] at hlookup
    obtain rfl := Option.some.inj hlookup
    exact hactive
  · rw [Finmap.lookup_insert_of_ne _ heq] at hlookup
    exact hsnapshots height vs hlookup

/-- A rollback puts a snapshot into office, or nobody. -/
theorem activeValidators_revertBlock (hnil : I [])
    (hsnapshots : ∀ height vs, s.validatorSnapshots.lookup height = some vs → I vs) (tip : Block P) :
    I (s.revertBlock tip).1.activeValidators := by
  show I ((s.validatorSnapshots.lookup (s.currentHeight - 1)).getD [])
  cases hlookup : s.validatorSnapshots.lookup (s.currentHeight - 1) with
  | none => exact hnil
  | some vs => exact hsnapshots _ vs hlookup

theorem snapshots_revertBlock
    (hsnapshots : ∀ height vs, s.validatorSnapshots.lookup height = some vs → I vs) (tip : Block P) :
    ∀ height vs, (s.revertBlock tip).1.validatorSnapshots.lookup height = some vs → I vs := by
  intro height vs hvs
  have hlookup : (s.validatorSnapshots.erase s.currentHeight).lookup height = some vs := hvs
  by_cases heq : height = s.currentHeight
  · rw [heq, Finmap.lookup_erase] at hlookup
    cases hlookup
  · rw [Finmap.lookup_erase_ne heq] at hlookup
    exact hsnapshots height vs hlookup

end Snapshots

/-- The validators in office, and those a rollback may put back. -/
structure SeatsDistinct (s : ChainState P) : Prop where
  active : DistinctStakes s.activeValidators
  snapshots : ∀ height vs, s.validatorSnapshots.lookup height = some vs → DistinctStakes vs

theorem SeatsDistinct.commitBlock (h : SeatsDistinct s) (hcheck : s.checkBlock b = some c) :
    SeatsDistinct (s.commitBlock b c).1 := by
  refine ⟨?_, snapshots_commitBlock h.active h.snapshots⟩
  rw [(accepted_of_checkBlock hcheck).activeValidators_eq]
  refine List.Nodup.sublist ?_ (h.active.registerAll b.validatorOps)
  exact List.filter_sublist.map _

theorem SeatsDistinct.revertBlock (h : SeatsDistinct s) (tip : Block P) :
    SeatsDistinct (s.revertBlock tip).1 :=
  ⟨activeValidators_revertBlock (I := DistinctStakes) List.nodup_nil h.snapshots tip,
    snapshots_revertBlock h.snapshots tip⟩

/-- In every state that deliveries reach, no two validators stake the same coin. -/
theorem distinctStakes_deliver (bs : List (Block P)) :
    DistinctStakes (deliver bs).activeValidators := by
  have hseats : SeatsDistinct (deliver bs) := by
    refine deliver_invariant ?_ ?_ ?_ ?_ bs
    · refine ⟨List.nodup_nil, ?_⟩
      intro height vs hvs
      cases hvs
    · exact fun h => ⟨h.active, h.snapshots⟩
    · exact fun h hcheck => h.commitBlock hcheck
    · exact fun h => h.revertBlock _
  exact hseats.active

end ChainState

namespace Devnet

open ChainState

/-- A block that registers the bootstrap stake is replaced by a fork that registers it too. -/
@[irreducible] def stakedFork : List (Block crypto) :=
  let first := mineStakes (deliver [genesis]) (coinbase 1 11) [stakeOp]
  let rival := { mineRival (deliver [genesis]) (coinbase 1 13) with validatorOps := [stakeOp] }
  let second := mine (deliver [genesis, rival]) (coinbase 2 14)
  [genesis, first, rival, second]

theorem stakedFork_backed :
    (deliver stakedFork).activeValidators ≠ [] ∧
      ∀ v ∈ (deliver stakedFork).activeValidators, v.commitment ∈ (deliver stakedFork).utxos := by
  have hrun : (zeroHash :: stakedFork.map Block.hash).Nodup ∧
      EachDelivery StakeSafe stakedFork ∧
      (deliver stakedFork).activeValidators ≠ [] := by
    decide +kernel
  obtain ⟨hnodup, hkept, hstaked⟩ := hrun
  exact ⟨hstaked, stakes_backed (distinctHashes_of_nodup hnodup) hkept⟩

/-- The bootstrap stake is registered, then pays for a name. -/
def spentStake : List (Block crypto) :=
  let first := mineStakes (deliver [genesis]) (coinbase 1 11) [stakeOp]
  let second := mineNames (deliver [genesis, first]) (coinbase 2 12)
    [nameOp "alice" 3 (payment genesisStake 42 3 5)]
  [genesis, first, second]

theorem spentStake_unbacked :
    ∃ v ∈ (deliver spentStake).activeValidators, v.commitment ∉ (deliver spentStake).utxos := by
  decide +kernel

end Devnet

end Haze
