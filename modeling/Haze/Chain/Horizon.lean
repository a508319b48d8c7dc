import Haze.Chain.Pruning
import Haze.Chain.Undo

/-!
# Rolling back after compaction

Compaction leaves everything that decides about blocks, and of the stored blocks it keeps headers,
kernels and operations. What a rollback reads beside these are the inputs and outputs of the tip and two
snapshots; down to the horizon they are all there, and rolling back leads to the same states as if
nothing had been taken out (`compaction_safe`).

The comparison that protects the blocks within the horizon is `spend_height + horizon > current_height`,
in `u64`. It fails to protect them when the sum wraps around.
-/

namespace Haze

namespace ChainState

variable {P : Crypto} {H : BlockHeader P → Prop} {s t : ChainState P} {order : List Bytes32}
  {horizon : UInt64}

/-- Two states agree on everything but the store and the snapshots. -/
structure Alike (t s : ChainState P) : Prop where
  utxos : t.utxos = s.utxos
  kernels : t.kernels = s.kernels
  kernelExcesses : t.kernelExcesses = s.kernelExcesses
  currentHeight : t.currentHeight = s.currentHeight
  lastBlockHash : t.lastBlockHash = s.lastBlockHash
  activeValidators : t.activeValidators = s.activeValidators
  nameRegistry : t.nameRegistry = s.nameRegistry
  assetRegistry : t.assetRegistry = s.assetRegistry
  collectionRegistry : t.collectionRegistry = s.collectionRegistry
  collectionMintCounts : t.collectionMintCounts = s.collectionMintCounts

/-- What compaction promises. -/
structure CompactsSafely (s : ChainState P) (order : List Bytes32) (horizon : UInt64) : Prop where
  alike : Alike (s.compact order horizon).1 s
  blocks : ∀ hash, ((s.compact order horizon).1.blocks.lookup hash).map Block.stripped =
    (s.blocks.lookup hash).map Block.stripped
  coins : ∀ hash b b', s.blocks.lookup hash = some b →
    (s.compact order horizon).1.blocks.lookup hash = some b' →
      ∀ c ∈ b.prunableCreated, c ∈ s.utxos → c ∈ b'.prunableCreated
  rollbacks : ∀ k ≤ horizon.toNat, k ≤ s.currentHeight.toNat → ∃ s' t',
    rollbackTimes k s = some s' ∧ rollbackTimes k (s.compact order horizon).1 = some t' ∧ Alike t' s'

theorem alike_compact (s : ChainState P) (order : List Bytes32) (horizon : UInt64) :
    Alike (s.compact order horizon).1 s :=
  ⟨rfl, rfl, rfl, rfl, rfl, rfl, rfl, rfl, rfl, rfl⟩

theorem stripped_compact (s : ChainState P) (order : List Bytes32) (horizon : UInt64)
    (hash : Bytes32) : ((s.compact order horizon).1.blocks.lookup hash).map Block.stripped =
      (s.blocks.lookup hash).map Block.stripped := by
  rw [lookup_compact, Option.map_map]
  congr 1
  funext b
  exact b.stripped_prune _ _

/-- A coin stays in the block that created it. -/
theorem coins_compact {hash : Bytes32} {b b' : Block P} (hb : s.blocks.lookup hash = some b)
    (hb' : (s.compact order horizon).1.blocks.lookup hash = some b') {c : Commitment P}
    (hc : c ∈ b.prunableCreated) (hcoin : c ∈ s.utxos) : c ∈ b'.prunableCreated := by
  by_contra hgone
  obtain ⟨spendHash, hpair⟩ := (notMem_prunableCreated_iff hb hb' hc).mp hgone
  obtain ⟨-, b₁, -, -, -, hspend⟩ := mem_prunePairs_iff.mp hpair
  exact (deepSpend_eq_some_iff.mp hspend).1 hcoin

/-! ## Within the horizon

What is not deeper than the horizon is left whole by a pass, provided that the heights do not wrap. -/

/-- The sums of the heights on the chain and the horizon do not wrap around, or nothing is old enough
to be looked at. -/
def NoWrap (s : ChainState P) (horizon : UInt64) : Prop :=
  s.currentHeight.toNat < horizon.toNat ∨ s.currentHeight.toNat + horizon.toNat < 2 ^ 64

instance (s : ChainState P) (horizon : UInt64) : Decidable (NoWrap s horizon) :=
  inferInstanceAs (Decidable (s.currentHeight.toNat < horizon.toNat ∨
    s.currentHeight.toNat + horizon.toNat < 2 ^ 64))

/-- A block of the chain within the horizon is left whole. -/
theorem lookup_compact_recent {hash : Bytes32} {d : Block P} (hwrap : NoWrap s horizon)
    (hd : s.blocks.lookup hash = some d) (hle : d.height.toNat ≤ s.currentHeight.toNat)
    (hrecent : s.currentHeight.toNat < d.height.toNat + horizon.toNat) :
    (s.compact order horizon).1.blocks.lookup hash = some d := by
  -- nothing that the block creates is pruned, since it is not old
  have houts : s.prunedOutputs order horizon hash = [] := by
    refine List.eq_nil_iff_forall_not_mem.mpr fun c hc => ?_
    obtain ⟨spendHash, hpair⟩ := mem_prunedOutputs_iff.mp hc
    obtain ⟨-, b, hb, hold, -⟩ := mem_prunePairs_iff.mp hpair
    obtain rfl : d = b := Option.some.inj (hd.symm.trans hb)
    rw [UInt64.lt_iff_toNat_lt, toNat_saturatingSub] at hold
    omega
  -- and no input of it, since what spends it is not deep
  have hins : s.prunedInputs order horizon hash = [] := by
    refine List.eq_nil_iff_forall_not_mem.mpr fun c hc => ?_
    obtain ⟨created, hpair⟩ := mem_prunedInputs_iff.mp hc
    obtain ⟨-, b, -, hold, -, hspend⟩ := mem_prunePairs_iff.mp hpair
    obtain ⟨-, spendHeight, hlookup, hdeep⟩ := deepSpend_eq_some_iff.mp hspend
    obtain ⟨-, d', hd', -, hheight⟩ := spentBy_of_lookup hlookup
    obtain rfl : d = d' := Option.some.inj (hd.symm.trans hd')
    simp only at hheight
    rw [UInt64.lt_iff_toNat_lt, toNat_saturatingSub] at hold
    rw [← hheight, UInt64.le_iff_toNat_le, UInt64.toNat_add] at hdeep
    rcases hwrap with hbig | hfit
    · omega
    · rw [Nat.mod_eq_of_lt (by omega)] at hdeep
      omega
  rw [lookup_compact, hd, houts, hins, Option.map_some, Block.prune_nil]

theorem validatorSnapshots_compact {n : UInt64}
    (h : s.currentHeight.toNat ≤ n.toNat + horizon.toNat) :
    (s.compact order horizon).1.validatorSnapshots.lookup n = s.validatorSnapshots.lookup n := by
  refine (KeyedMap.lookup_retain _ _ _).trans (if_pos (decide_eq_true ?_))
  rw [ge_iff_le, UInt64.le_iff_toNat_le, toNat_saturatingSub]
  omega

theorem transferSnapshots_compact {n : UInt64}
    (h : s.currentHeight.toNat ≤ n.toNat + horizon.toNat) :
    (s.compact order horizon).1.transferSnapshots.lookup n = s.transferSnapshots.lookup n := by
  refine (KeyedMap.lookup_retain _ _ _).trans (if_pos (decide_eq_true ?_))
  rw [ge_iff_le, UInt64.le_iff_toNat_le, toNat_saturatingSub]
  omega

/-! ## Rolling back

A state and the same state after a pass: they differ in old blocks only. Rolling both back by as many blocks
as the horizon allows keeps them alike. -/

/-- The state `t` stands in for `s` during `k` rollbacks. -/
structure StandsIn (H : BlockHeader P → Prop) (k : ℕ) (t s : ChainState P)
    (chain : List (Block P)) : Prop where
  alike : Alike t s
  rests : Rests H s.blocks s.lastBlockHash s.currentHeight chain
  tips : ∀ b ∈ chain.take k, t.blocks.lookup b.hash = some b
  validators : ∀ n : UInt64, s.currentHeight.toNat ≤ n.toNat + k →
    t.validatorSnapshots.lookup n = s.validatorSnapshots.lookup n
  names : ∀ n : UInt64, s.currentHeight.toNat ≤ n.toNat + k →
    t.transferSnapshots.lookup n = s.transferSnapshots.lookup n
  assets : t.assetTransferSnapshots = s.assetTransferSnapshots

theorem lookup_erase_congr {V : Type} {m m' : KeyedMap UInt64 V} {k n : UInt64}
    (h : m'.lookup n = m.lookup n) : (m'.erase k).lookup n = (m.erase k).lookup n := by
  by_cases heq : n = k
  · rw [heq, Finmap.lookup_erase, Finmap.lookup_erase]
  · rw [Finmap.lookup_erase_ne heq, Finmap.lookup_erase_ne heq, h]

theorem StandsIn.revertBlock {k : ℕ} {top : Block P} {rest : List (Block P)}
    (h : StandsIn H (k + 1) t s (top :: rest))
    (hrest : Rests H s.blocks top.header.prevHash (s.currentHeight - 1) rest)
    (hprev : (s.currentHeight - 1).toNat + 1 = s.currentHeight.toNat) :
    StandsIn H k (t.revertBlock top).1 (s.revertBlock top).1 rest := by
  have hvalidators := h.validators (s.currentHeight - 1) (by omega)
  have hnames := h.names s.currentHeight (by omega)
  refine ⟨?_, hrest, ?_, ?_, ?_, ?_⟩
  -- the block at the tip is whole in both, and so is what a rollback reads of the snapshots
  · refine ⟨?_, ?_, ?_, ?_, rfl, ?_, ?_, ?_, ?_, ?_⟩
    · exact congrArg (Coins.revertAll · _) h.alike.utxos
    · exact congrArg (removeKernels · _) h.alike.kernels
    · exact congrArg (Coins.spend · _) h.alike.kernelExcesses
    · exact congrArg (· - 1) h.alike.currentHeight
    · show (t.validatorSnapshots.lookup (t.currentHeight - 1)).getD [] = _
      rw [h.alike.currentHeight, hvalidators]
      rfl
    · show KeyedMap.insertAll (KeyedMap.eraseAll t.nameRegistry _)
        ((t.transferSnapshots.lookup t.currentHeight).getD []) = _
      rw [h.alike.currentHeight, hnames, h.alike.nameRegistry]
      rfl
    · show KeyedMap.insertAll (KeyedMap.eraseAll t.assetRegistry _)
        (tipSnapshot t.assetTransferSnapshots t.currentHeight) = _
      rw [h.alike.currentHeight, h.assets, h.alike.assetRegistry]
      rfl
    · exact congrArg (KeyedMap.eraseAll · _) h.alike.collectionRegistry
    · exact congrArg (List.foldl Counter.unbump · _) h.alike.collectionMintCounts
  · exact fun b hb => h.tips b (List.mem_cons_of_mem _ hb)
  -- the snapshots that are still needed are the same on both sides
  · intro n hn
    show (t.validatorSnapshots.erase t.currentHeight).lookup n =
      (s.validatorSnapshots.erase s.currentHeight).lookup n
    rw [h.alike.currentHeight]
    refine lookup_erase_congr (h.validators n ?_)
    change (s.currentHeight - 1).toNat ≤ n.toNat + k at hn
    omega
  · intro n hn
    show (t.transferSnapshots.erase t.currentHeight).lookup n =
      (s.transferSnapshots.erase s.currentHeight).lookup n
    rw [h.alike.currentHeight]
    refine lookup_erase_congr (h.names n ?_)
    change (s.currentHeight - 1).toNat ≤ n.toNat + k at hn
    omega
  · show t.assetTransferSnapshots.erase t.currentHeight = _
    rw [h.assets, h.alike.currentHeight]
    rfl

/-- One rollback takes the same block off both. -/
theorem StandsIn.rollbackBlock {k : ℕ} {chain : List (Block P)} (h : StandsIn H (k + 1) t s chain)
    (hpos : s.currentHeight ≠ 0) : ∃ s' δ t' δ' rest, s.rollbackBlock = some (s', δ) ∧
      t.rollbackBlock = some (t', δ') ∧ s'.currentHeight.toNat + 1 = s.currentHeight.toNat ∧
        StandsIn H k t' s' rest := by
  obtain ⟨top, rest, rfl, htop, -, hrest⟩ := h.rests.pop hpos
  -- the tip is within the horizon, so it is the same block in both stores
  have htop' : t.blocks.lookup t.lastBlockHash = some top := by
    have hkey : top.hash = s.lastBlockHash := (h.rests.headed _ _ htop).1
    rw [h.alike.lastBlockHash, ← hkey]
    exact h.tips top List.mem_cons_self
  have hpos' : t.currentHeight ≠ 0 := by
    rw [h.alike.currentHeight]
    exact hpos
  have hprev : (s.currentHeight - 1).toNat + 1 = s.currentHeight.toNat := by
    have hne : s.currentHeight.toNat ≠ 0 := fun h0 => hpos (UInt64.toNat_inj.mp h0)
    have hone : (1 : UInt64) ≤ s.currentHeight := by
      rw [UInt64.le_iff_toNat_le, UInt64.toNat_one]
      omega
    rw [UInt64.toNat_sub_of_le _ _ hone, UInt64.toNat_one]
    omega
  refine ⟨(s.revertBlock top).1, (s.revertBlock top).2, (t.revertBlock top).1, (t.revertBlock top).2,
    rest, ?_, ?_, hprev, h.revertBlock hrest hprev⟩
  · rw [ChainState.rollbackBlock, if_neg hpos, htop, Option.map_some]
  · rw [ChainState.rollbackBlock, if_neg hpos', htop', Option.map_some]

theorem StandsIn.rollbackTimes {n k : ℕ} {chain : List (Block P)} (h : StandsIn H (n + k) t s chain)
    (hn : n ≤ s.currentHeight.toNat) : ∃ s' t' rest, ChainState.rollbackTimes n s = some s' ∧
      ChainState.rollbackTimes n t = some t' ∧ s'.currentHeight.toNat + n = s.currentHeight.toNat ∧
        StandsIn H k t' s' rest := by
  induction n generalizing k with
  | zero =>
      rw [Nat.zero_add] at h
      exact ⟨s, t, chain, rfl, rfl, rfl, h⟩
  | succ n ih =>
      rw [Nat.add_right_comm, Nat.add_assoc] at h
      obtain ⟨s₁, t₁, rest₁, hs₁, ht₁, hheight₁, hstands⟩ := ih h (by omega)
      have hpos : s₁.currentHeight ≠ 0 := by
        intro h0
        rw [h0, UInt64.toNat_zero] at hheight₁
        omega
      obtain ⟨s', δ, t', δ', rest, hs', ht', hheight, hstands'⟩ := hstands.rollbackBlock hpos
      refine ⟨s', t', rest, ?_, ?_, by omega, hstands'⟩
      · simp [ChainState.rollbackTimes, hs₁, hs']
      · simp [ChainState.rollbackTimes, ht₁, ht']

/-- **Compaction is safe within the horizon.** Of every reachable state whose heights do not wrap around
when the horizon is added, it leaves the consensus state, the headers, kernels and operations of stored
blocks and the coins, and every rollback within the horizon. -/
theorem compaction_safe (hH : DistinctHeaders H) (hs : Reaches H s) (order : List Bytes32)
    (hwrap : NoWrap s horizon) : CompactsSafely s order horizon := by
  refine ⟨alike_compact s order horizon, stripped_compact s order horizon,
    fun hash b b' hb hb' c hc hcoin => coins_compact hb hb' hc hcoin, ?_⟩
  intro k hk hheight
  obtain ⟨chain, hrests⟩ := hs.rooted hH
  have hstands : StandsIn H (k + 0) (s.compact order horizon).1 s chain := by
    refine ⟨alike_compact s order horizon, hrests, ?_, ?_, ?_, rfl⟩
    · intro b hb
      obtain ⟨i, hi, rfl⟩ := List.mem_take_iff_getElem.mp hb
      have hlookup : s.blocks.lookup chain[i].hash = some chain[i] :=
        hrests.linked.lookup_eq hrests.headed _ (List.mem_of_mem_take hb)
      have hdepth : chain[i].height.toNat + i = s.currentHeight.toNat :=
        hrests.linked.height_of_drop (List.drop_eq_getElem_cons (by omega))
      exact lookup_compact_recent hwrap hlookup (by omega) (by omega)
    · exact fun n hn => validatorSnapshots_compact (by omega)
    · exact fun n hn => transferSnapshots_compact (by omega)
  obtain ⟨s', t', rest, hs', ht', -, hstands'⟩ := hstands.rollbackTimes hheight
  exact ⟨s', t', hs', ht', hstands'.alike⟩

end ChainState

namespace Devnet

open ChainState

/-- The blocks with the side fork: the large genesis coin is taken out of the first of them, and the tip
can be rolled back as before. -/
theorem sideState_compacts :
    NoWrap sideState 1 ∧ CompactsSafely sideState sideOrder 1 := by
  obtain ⟨hnodup, -, hheight, -⟩ := sideState_run
  have hwrap : NoWrap sideState 1 := by
    rw [NoWrap, hheight]
    decide
  unfold sideOrder at hnodup
  refine ⟨hwrap, compaction_safe (distinctHeaders_of_nodup hnodup) ?_ sideOrder hwrap⟩
  unfold sideState
  apply reaches_deliver
  simp

end Devnet

end Haze
