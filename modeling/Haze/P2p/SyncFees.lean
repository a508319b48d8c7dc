import Haze.Chain.Headers
import Haze.P2p.Conversation
import Mathlib.Data.Nat.ModEq

/-!
# The registry fees of an aggregate sync

A snapshot is checked against what was issued less the registry fees that the chain has burned. The
session counts these fees from two sides: it starts with the fees of everything the node has stored when
it falls back, and adds those of each block it folds.

The store also has blocks that are on no chain, or on another one; and when only a payment of the block
that makes the node fall back was pruned, and not its body, `apply_block` has stored that block already.
Their fees are counted as well, and once more than they should be (`registry_fees_iff`).
-/

namespace Haze

variable {P : Crypto} {H : BlockHeader P → Prop}

/-! ## What is stored

Whoever falls back sums up the registry fees of all blocks in its database. Those on its chain are right;
those of abandoned forks are counted too. -/

namespace ChainState

variable {s : ChainState P}

/-- The registry fees of a stored block. -/
def storedFees (s : ChainState P) (hash : Bytes32) : ℕ :=
  ((s.blocks.lookup hash).map Block.registryFees).getD 0

/-- The registry fees of the stored blocks that are not on the active chain. -/
def strayFees (s : ChainState P) : ℕ :=
  ∑ hash ∈ s.blocks.keys.filter (· ∉ s.activeChain.map Block.hash), s.storedFees hash

theorem totalRegistryFeesBurned_eq (s : ChainState P) :
    totalRegistryFeesBurned s.blocks = UInt64.ofNat (∑ hash ∈ s.blocks.keys, s.storedFees hash) := by
  unfold totalRegistryFeesBurned
  congr 1
  refine Finset.sum_congr rfl fun hash _ => ?_
  unfold storedFees
  cases s.blocks.lookup hash with
  | none => rfl
  | some b => rfl

/-- The blocks of the active chain are stored, once each. -/
theorem Rests.sum_storedFees {chain : List (Block P)} (hH : DistinctHeaders H)
    (h : Rests H s.blocks s.lastBlockHash s.currentHeight chain) :
    ∑ hash ∈ s.blocks.keys, s.storedFees hash = feesOf s.activeChain + s.strayFees := by
  have hlookup : ∀ b ∈ chain, s.blocks.lookup b.hash = some b := h.linked.lookup_eq h.headed
  have hnodup : (chain.map Block.hash).Nodup := h.linked.nodup h.headed
  have hchain : s.blocks.keys.filter (· ∈ chain.map Block.hash) = (chain.map Block.hash).toFinset := by
    ext hash
    rw [Finset.mem_filter, List.mem_toFinset, and_iff_right_iff_imp]
    intro hmem
    obtain ⟨b, hb, rfl⟩ := List.mem_map.mp hmem
    exact Finmap.mem_keys.mpr (Finmap.mem_of_lookup_eq_some (hlookup b hb))
  have hsum : ∑ hash ∈ s.blocks.keys.filter (· ∈ chain.map Block.hash), s.storedFees hash =
      feesOf chain := by
    rw [hchain, List.sum_toFinset _ hnodup, List.map_map]
    refine congrArg List.sum (List.map_congr_left fun b hb => ?_)
    simp [storedFees, hlookup b hb]
  rw [strayFees, h.activeChain_eq hH, ← hsum]
  exact (Finset.sum_filter_add_sum_filter_not _ _ _).symm

end ChainState

/-! ## What is counted

The counter is a `u64` and so are the fees of a transaction, and all sums are taken modulo its range. -/

theorem registryFees_eq (b : Block P) :
    b.registryFees = (b.payments.map fun tx => (tx.kernels.map fun k => k.fee.toNat).sum).sum := by
  unfold Block.registryFees
  induction b.payments with
  | nil => rfl
  | cons tx txs ih => simp [ih]

theorem totalFee_modEq (tx : Transaction P) :
    tx.totalFee.toNat ≡ (tx.kernels.map fun k => k.fee.toNat).sum [MOD 2 ^ 64] := by
  rw [Transaction.totalFee, toNat_sum, List.map_map]
  exact Nat.mod_modEq _ _

/-- Each step of the loop over the payments adds their fees, modulo `2 ^ 64`. -/
theorem foldl_fees_modEq {α : Type} (pay : α → Transaction P) (ops : List α)
    (acc : List (TxKernel P) × UInt64) :
    (ops.foldl (fun acc op => (acc.1 ++ (pay op).kernels, acc.2 + (pay op).totalFee)) acc).2.toNat ≡
      acc.2.toNat + (ops.map fun op => ((pay op).kernels.map fun k => k.fee.toNat).sum).sum
        [MOD 2 ^ 64] := by
  induction ops generalizing acc with
  | nil => exact Nat.ModEq.refl _
  | cons op ops ih =>
      rw [List.foldl_cons, List.map_cons, List.sum_cons, ← Nat.add_assoc]
      refine (ih _).trans (Nat.ModEq.add_right _ ?_)
      rw [UInt64.toNat_add]
      exact (Nat.mod_modEq _ _).trans ((totalFee_modEq (pay op)).add_left _)

/-- A folded block adds its registry fees. -/
theorem extendAggregate_modEq (kernels : List (TxKernel P)) (registryFees : UInt64) (b : Block P) :
    (extendAggregate kernels registryFees b).2.toNat ≡ registryFees.toNat + b.registryFees
      [MOD 2 ^ 64] := by
  unfold extendAggregate
  refine (foldl_fees_modEq MintAssetOp.feePayment b.mintOps _).trans ?_
  refine ((foldl_fees_modEq RegisterNameOp.feePayment b.nameOps _).add_right _).trans ?_
  rw [registryFees_eq, Block.payments, List.map_append, List.sum_append, List.map_map, List.map_map,
    Nat.add_assoc]
  exact Nat.ModEq.refl _

namespace Watch

open ChainState

variable {w : Watch P} {b : Block P}

/-- The chain from genesis to the last folded block. -/
def syncedChain (w : Watch P) : List (Block P) :=
  w.entry.activeChain.reverse ++ w.folded

/-- What the session has counted. -/
def Counted (w : Watch P) : Prop :=
  w.connection.session.aggregateRegistryFees.toNat ≡
    ∑ hash ∈ w.entry.blocks.keys, w.entry.storedFees hash + feesOf w.folded [MOD 2 ^ 64]

theorem feesOf_append (bs bs' : List (Block P)) : feesOf (bs ++ bs') = feesOf bs + feesOf bs' := by
  simp [feesOf]

/-- The node rests on a chain, and so it did when it fell back; and the session has counted. -/
structure Counting (H : BlockHeader P → Prop) (w : Watch P) : Prop where
  rooted : Rooted H w.connection.chain
  entry : w.connection.session.aggregateMode = true → Rooted H w.entry
  counted : w.connection.session.aggregateMode = true → Counted w

theorem Counting.syncBlock (hH : DistinctHeaders H) (h : Counting H w) (hb : H b.header) :
    Counting H (w.syncBlock b).1 := by
  have hrooted : Rooted H (w.syncBlock b).1.connection.chain := by
    rcases chain_syncBlock w b with heq | heq
    · rw [heq]
      exact h.rooted
    · rw [heq]
      exact h.rooted.applyBlock hH hb
  rcases w.syncBlock_cases b with ⟨hmode, -⟩ | ⟨hmode, -, heq⟩ | ⟨-, -, -, heq⟩
  · refine ⟨hrooted, ?_, ?_⟩
    · rw [hmode]
      simp
    · rw [hmode]
      simp
  · refine ⟨hrooted, ?_, ?_⟩
    · rw [heq]
      exact fun _ => h.entry hmode
    · intro _
      rw [heq, Counted, feesOf_append, ← Nat.add_assoc]
      refine (extendAggregate_modEq _ _ b).trans ?_
      exact (h.counted hmode).add (by simp [feesOf, Nat.ModEq])
  · refine ⟨hrooted, ?_, ?_⟩
    · rw [heq]
      exact fun _ => h.rooted.applyBlock hH hb
    · intro _
      rw [heq, Counted]
      refine (extendAggregate_modEq _ _ b).trans (Nat.ModEq.add ?_ (by simp [feesOf, Nat.ModEq]))
      show (totalRegistryFeesBurned (w.connection.chain.applyBlock b).1.blocks).toNat ≡ _ [MOD _]
      rw [totalRegistryFeesBurned_eq, UInt64.toNat_ofNat']
      exact Nat.mod_modEq _ _

/-- A node that has delivered blocks receives batches of blocks. -/
def runBatches (bs : List (Block P)) (batches : List (List (Block P) × Bool)) : Watch P :=
  run (deliver bs) (batches.map fun batch => .blocksBatch batch.1 batch.2)

theorem counting_runBatches (hH : DistinctHeaders H) {bs : List (Block P)}
    (hbs : ∀ b ∈ bs, H b.header) {batches : List (List (Block P) × Bool)}
    (hbatches : ∀ batch ∈ batches, ∀ b ∈ batch.1, H b.header) :
    Counting H (runBatches bs batches) := by
  have hstart : Counting H (start (deliver bs)) :=
    ⟨(reaches_deliver hbs).rooted hH, fun h => (nomatch h), fun h => (nomatch h)⟩
  unfold runBatches run
  generalize start (deliver bs) = w at hstart
  induction batches generalizing w with
  | nil => exact hstart
  | cons batch batches ih =>
      rw [List.forall_mem_cons] at hbatches
      rw [List.map_cons, List.foldl_cons]
      refine ih hbatches.2 _ ?_
      exact syncBlocks_induct hstart hbatches.1 fun h hb => h.syncBlock hH hb

/-- **The fees of an aggregate sync.** After any batches of blocks that lead to an aggregate, the fees
counted are those of the blocks on the synced chain, each once, if and only if the fees of the stored
blocks that are not on the chain make up a multiple of `2 ^ 64`, and the fees of the chain fit. -/
theorem registry_fees_iff (hH : DistinctHeaders H) {bs : List (Block P)} (hbs : ∀ b ∈ bs, H b.header)
    {batches : List (List (Block P) × Bool)}
    (hbatches : ∀ batch ∈ batches, ∀ b ∈ batch.1, H b.header)
    (hmode : (runBatches bs batches).connection.session.aggregateMode = true) :
    (runBatches bs batches).connection.session.aggregateRegistryFees.toNat =
        feesOf (runBatches bs batches).syncedChain ↔
      2 ^ 64 ∣ (runBatches bs batches).entry.strayFees ∧
        feesOf (runBatches bs batches).syncedChain < 2 ^ 64 := by
  have hcounting := counting_runBatches hH hbs hbatches
  generalize runBatches bs batches = w at hcounting hmode ⊢
  obtain ⟨chain, hrests⟩ := hcounting.entry hmode
  have hcounted : w.connection.session.aggregateRegistryFees.toNat ≡
      feesOf w.syncedChain + w.entry.strayFees [MOD 2 ^ 64] := by
    have hsum := hcounting.counted hmode
    have hreverse : feesOf w.entry.activeChain.reverse = feesOf w.entry.activeChain := by
      simp [feesOf]
    rw [Counted, hrests.sum_storedFees hH] at hsum
    rw [syncedChain, feesOf_append, hreverse, Nat.add_right_comm]
    exact hsum
  have hlt := UInt64.toNat_lt w.connection.session.aggregateRegistryFees
  have hstray : 2 ^ 64 ∣ w.entry.strayFees ↔
      feesOf w.syncedChain + w.entry.strayFees ≡ feesOf w.syncedChain [MOD 2 ^ 64] := by
    rw [Nat.add_modEq_left_iff]
  constructor
  · intro heq
    rw [heq] at hcounted hlt
    exact ⟨hstray.mpr hcounted.symm, hlt⟩
  · rintro ⟨hdvd, hfit⟩
    have hmod := hcounted.trans (hstray.mp hdvd)
    exact Nat.ModEq.eq_of_lt_of_lt hmod hlt hfit

end Watch

namespace Devnet

open ChainState Watch

@[irreducible] def nextBlock : Block crypto :=
  mine (linear [genesis, nameBlock]) (coinbase 2 12)

/-- The block of a peer that has pruned the reward in it. The body no longer balances, and the block is
not stored. -/
@[irreducible] def prunedReward : Block crypto :=
  nextBlock.prune nextBlock.created []

theorem prunedReward_fees :
    feesOf (runBatches [genesis, nameBlock] [([prunedReward], false)]).syncedChain = 5 ∧
      (runBatches [genesis, nameBlock] [([prunedReward],
        false)]).connection.session.aggregateRegistryFees.toNat =
          feesOf (runBatches [genesis, nameBlock] [([prunedReward], false)]).syncedChain := by
  have hrun : (zeroHash :: [genesis, nameBlock, prunedReward].map Block.hash).Nodup ∧
      (runBatches [genesis, nameBlock] [([prunedReward], false)]).connection.session.aggregateMode =
        true ∧
      (runBatches [genesis, nameBlock] [([prunedReward], false)]).entry.strayFees = 0 ∧
      feesOf (runBatches [genesis, nameBlock] [([prunedReward], false)]).syncedChain = 5 := by
    decide +kernel
  obtain ⟨hnodup, hmode, hstray, hfees⟩ := hrun
  refine ⟨hfees, ?_⟩
  refine (registry_fees_iff (distinctHeaders_of_nodup hnodup) ?_ ?_ hmode).mpr ⟨?_, ?_⟩
  · simp
  · simp
  · rw [hstray]
    exact dvd_zero _
  · rw [hfees]
    decide

/-- A peer that has pruned a registration in its first block, and of the body of that block nothing. -/
@[irreducible] def prunedName : ChainState crypto :=
  ((linear [genesis, nameBlock, nextBlock]).compact
    ([genesis, nameBlock, nextBlock].map Block.hash) 1).1

@[irreducible] def prunedNameSync : List (Block crypto) × Bool :=
  prunedName.getBlocksFrom 1 syncBatchSize

theorem prunedName_rooted :
    Rooted (· ∈ [genesis, nameBlock, nextBlock].map Block.header) prunedName := by
  have hblocks : (zeroHash :: [genesis, nameBlock, nextBlock].map Block.hash).Nodup ∧
      (applyAll [genesis, nameBlock, nextBlock] ChainState.new).isSome = true := by
    decide +kernel
  obtain ⟨hnodup, happlies⟩ := hblocks
  obtain ⟨⟨s, δs⟩, happly⟩ := Option.isSome_iff_exists.mp happlies
  have hH := distinctHeaders_of_nodup hnodup
  have hpeer : Rooted (· ∈ [genesis, nameBlock, nextBlock].map Block.header)
      (linear [genesis, nameBlock, nextBlock]) := by
    rw [linear, happly]
    exact (Reaches.rooted hH .new).applyAll hH (fun b hb => List.mem_map_of_mem hb) happly
  unfold prunedName
  exact (activeChain_compact hH hpeer).1

/-- The fee of the registration is counted twice, and the peer's snapshot refused, although the peer plays
by the rules: the batch is its answer to the request after its greeting. -/
theorem prunedNameSync_twice :
    Conversation.EachMove (Conversation.Honest (· ∈ [genesis, nameBlock, nextBlock].map Block.header)
        (Rooted (· ∈ [genesis, nameBlock, nextBlock].map Block.header)))
      (Conversation.sync prunedName 2) (Conversation.start (deliver [genesis])) ∧
    (Conversation.run (deliver [genesis]) (Conversation.sync prunedName 1)).watch =
      runBatches [genesis] [prunedNameSync] ∧
    (runBatches [genesis] [prunedNameSync]).connection.session.aggregateMode = true ∧
    feesOf (runBatches [genesis] [prunedNameSync]).syncedChain = 5 ∧
    (runBatches [genesis] [prunedNameSync]).connection.session.aggregateRegistryFees.toNat = 10 ∧
    (runBatches [genesis] [prunedNameSync]).connection.accepts prunedName.utxos.val
      prunedName.currentHeight = false := by
  have hhigher : (deliver [genesis]).currentHeight < prunedName.currentHeight ∧
      (deliver [genesis]).currentHeight + 1 = 1 := by
    decide +kernel
  obtain ⟨hhigher, hfrom⟩ := hhigher
  have hsync : (Conversation.run (deliver [genesis]) (Conversation.sync prunedName 1)).watch =
      runBatches [genesis] [prunedNameSync] := by
    rw [Conversation.watch_sync_one hhigher, hfrom]
    unfold prunedNameSync
    rfl
  refine ⟨Conversation.honest_sync _ 2 prunedName_rooted, hsync, ?_⟩
  decide +kernel

end Devnet

end Haze
