import Haze.Chain.Kernels
import Haze.Lib.Index
import Haze.Storage.Persist

/-!
# Restarting with the same coins

Memory moves the coins one transaction after another; the disk gets one batch for a whole block, which
removes all that was spent and then inserts all that was created. Kernels are a list in memory and a
tree keyed by excess on disk. The two agree as long as no block creates a coin that a later
transaction of it spends, none that is rolled back recreates a coin it had consumed, and no kernel
repeats an excess.
-/

namespace Haze

variable {P : Crypto}

theorem commitmentKey_injective : Function.Injective (commitmentKey (P := P)) := by
  intro c c' h
  have hpoint : some c.asPoint = some c'.asPoint := by
    rw [← P.decompress_compress, ← P.decompress_compress]
    exact congrArg P.decompress h
  exact Commitment.ext (Option.some.inj hpoint)

theorem fromCompressedBytes_commitmentKey (c : Commitment P) :
    Commitment.fromCompressedBytes (commitmentKey c).toList = some c := by
  have hlen : (commitmentKey c).toList.length = 32 := List.Vector.toList_length _
  rw [Commitment.fromCompressedBytes, dif_pos hlen]
  show (P.decompress (P.compress c.asPoint)).map Commitment.mk = some c
  rw [P.decompress_compress]
  rfl

namespace ChainState

variable {s : ChainState P} {d : Storage P} {b tip : Block P}

/-! ## Coins

Memory goes through the transactions of a block in order. The batch erases all inputs first and inserts all
outputs after that, so a coin that is created and then spent within the block stays on the disk; and
likewise when a block is rolled back. The two conditions leave exactly these coins out. -/

/-- The block's batch, on the tree of coins. -/
theorem holds_persistApplied {coins : Finset (Commitment P)}
    (h : KeyedMap.Holds commitmentKey d.utxos coins) (c : Candidate P) :
    KeyedMap.Holds commitmentKey (d.persistApplied (s.commitBlock b c).2).utxos
      (Coins.applyBatch coins b.moves) := by
  have houts : b.moves.flatMap Move.outs = b.created := by
    simp [Block.moves, Block.created, Block.transactions, List.flatMap_map, Transaction.move]
  have hins : b.moves.flatMap Move.ins = b.bodySpent ++ b.payments.flatMap Transaction.spent := by
    simp [Block.moves, List.flatMap_map, Transaction.move]
  rw [Coins.applyBatch, hins, houts]
  apply KeyedMap.Holds.batch commitmentKey_injective h
  show ((b.transactions.flatMap Transaction.outputs).map _).map Prod.fst = b.created.map commitmentKey
  rw [List.map_map, Block.created, List.map_flatMap, List.map_flatMap]
  simp [Transaction.created, Function.comp_def]

/-- The batch of a rollback. -/
theorem holds_persistRollback {coins : Finset (Commitment P)}
    (h : KeyedMap.Holds commitmentKey d.utxos coins) (tip : Block P) :
    KeyedMap.Holds commitmentKey (d.persistRollback (s.revertBlock tip).2).utxos
      (Coins.revertBatch coins (tip.transactions.map Transaction.move)) := by
  have hins : (tip.transactions.map Transaction.move).flatMap Move.ins = tip.consumed := by
    simp [Block.consumed, List.flatMap_map, Transaction.move]
  have houts : (tip.transactions.map Transaction.move).flatMap Move.outs = tip.created := by
    simp [Block.created, List.flatMap_map, Transaction.move]
  rw [Coins.revertBatch, hins, houts]
  apply KeyedMap.Holds.batch commitmentKey_injective h
  show (tip.consumed.map _).map Prod.fst = _
  rw [List.map_map]
  rfl

/-- The tree of coins holds those of the state. -/
def SameCoins (s : ChainState P) (d : Storage P) : Prop :=
  KeyedMap.Holds commitmentKey d.utxos s.utxos

/-- No coin that the block creates is spent for good by a later transaction of the block. -/
def CreatesInOrder (b : Block P) : Prop :=
  ∀ x ∈ b.created, ¬Coins.Lost x b.moves

/-- No coin that the block consumes is created again by a later transaction of the block, unless it is
consumed once more. -/
def RevertsInOrder (tip : Block P) : Prop :=
  ∀ x ∈ tip.consumed, Coins.Restores x (tip.transactions.map Transaction.move)

instance (b : Block P) : Decidable (CreatesInOrder b) :=
  inferInstanceAs (Decidable (∀ x ∈ b.created, ¬Coins.Lost x b.moves))

instance (tip : Block P) : Decidable (RevertsInOrder tip) :=
  inferInstanceAs (Decidable (∀ x ∈ tip.consumed,
    Coins.Restores x (tip.transactions.map Transaction.move)))

theorem SameCoins.commitBlock (h : SameCoins s d) (c : Candidate P) (hb : CreatesInOrder b) :
    SameCoins (s.commitBlock b c).1 (d.persistApplied (s.commitBlock b c).2) := by
  show KeyedMap.Holds commitmentKey _ (Coins.applyAll s.utxos b.moves)
  have houts : b.moves.flatMap Move.outs = b.created := by
    simp [Block.moves, Block.created, Block.transactions, List.flatMap_map, Transaction.move]
  have hbatch : Coins.applyBatch s.utxos b.moves = Coins.applyAll s.utxos b.moves :=
    Coins.applyBatch_eq_iff.mpr (by rw [houts]; exact hb)
  rw [← hbatch]
  exact holds_persistApplied h c

theorem SameCoins.revertBlock (h : SameCoins s d) (htip : RevertsInOrder tip) :
    SameCoins (s.revertBlock tip).1 (d.persistRollback (s.revertBlock tip).2) := by
  show KeyedMap.Holds commitmentKey _
    (Coins.revertAll s.utxos (tip.transactions.map Transaction.move))
  have hins : (tip.transactions.map Transaction.move).flatMap Move.ins = tip.consumed := by
    simp [Block.consumed, List.flatMap_map, Transaction.move]
  have hbatch : Coins.revertBatch s.utxos (tip.transactions.map Transaction.move) =
      Coins.revertAll s.utxos (tip.transactions.map Transaction.move) :=
    Coins.revertBatch_eq_iff.mpr (by rw [hins]; exact htip)
  rw [← hbatch]
  exact holds_persistRollback h tip

theorem utxos_persisted {bs : List (Block P)}
    (hC : EachDelivery (DeliveryMoves (fun _ => CreatesInOrder) RevertsInOrder) bs) :
    (persisted bs).loadState.utxos = (deliver bs).utxos := by
  have hsame : SameCoins (deliver bs) (persisted bs) := by
    apply persist_induct (D := fun _ => True) (fun _ _ => trivial) hC
    · exact KeyedMap.Holds.empty
    · exact fun _ h => h
    · exact fun _ h _ hb => h.commitBlock _ hb
    · exact fun _ _ h htip => h.revertBlock htip
  exact hsame.decode fromCompressedBytes_commitmentKey

/-- On every run, the disk has at least the coins that memory has. -/
theorem utxos_subset_persisted (bs : List (Block P)) :
    (deliver bs).utxos ⊆ (persisted bs).loadState.utxos := by
  obtain ⟨coins, hholds, hsub⟩ : ∃ coins,
      KeyedMap.Holds commitmentKey (persisted bs).utxos coins ∧ (deliver bs).utxos ⊆ coins := by
    apply persist_induct (D := fun _ => True) (Q := fun _ _ => True) (R := fun _ => True)
      (J := fun s d => ∃ coins, KeyedMap.Holds commitmentKey d.utxos coins ∧ s.utxos ⊆ coins)
      (fun _ _ => trivial)
    · exact fun _ _ _ _ => deliveryMoves_true
    · exact ⟨∅, KeyedMap.Holds.empty, subset_rfl⟩
    · exact fun _ h => h
    · rintro s d b c - ⟨coins, hholds, hsub⟩ - -
      exact ⟨_, holds_persistApplied hholds c, Coins.applyAll_subset_applyBatch hsub b.moves⟩
    · rintro s d tip - - ⟨coins, hholds, hsub⟩ -
      exact ⟨_, holds_persistRollback hholds tip, Coins.revertAll_subset_revertBatch hsub _⟩
  have hread : (persisted bs).loadState.utxos = coins :=
    hholds.decode fromCompressedBytes_commitmentKey
  rw [hread]
  exact hsub

/-! ## Kernels

On disk a kernel is found by its excess, so a second kernel with that excess replaces the first, while the
list in memory has both. -/

/-- The tree of kernels has one entry for each kernel of the state. -/
def SameKernels (s : ChainState P) (d : Storage P) : Prop :=
  KeyedMap.Indexes (fun k => commitmentKey k.excess) d.kernels s.kernels

/-- The kernels of the block have excesses of their own, new to the record. -/
def KernelsNew (s : ChainState P) (b : Block P) : Prop :=
  b.excesses.Nodup ∧ ∀ e ∈ b.excesses, e ∉ s.kernels.map TxKernel.excess

instance (s : ChainState P) (b : Block P) : Decidable (KernelsNew s b) :=
  inferInstanceAs (Decidable (b.excesses.Nodup ∧
    ∀ e ∈ b.excesses, e ∉ s.kernels.map TxKernel.excess))

theorem SameKernels.commitBlock (h : SameKernels s d) (c : Candidate P) (hb : KernelsNew s b) :
    SameKernels (s.commitBlock b c).1 (d.persistApplied (s.commitBlock b c).2) := by
  have hkeys : b.kernels.map (fun k => commitmentKey k.excess) = b.excesses.map commitmentKey := by
    simp [Block.excesses, Function.comp_def]
  refine KeyedMap.Indexes.insertAll h b.kernels ?_ ?_
  · rw [hkeys]
    exact hb.1.map commitmentKey_injective
  · rw [hkeys]
    intro key hkey hold
    obtain ⟨e, he, rfl⟩ := List.mem_map.mp hkey
    obtain ⟨k, hk, heq⟩ := List.mem_map.mp hold
    exact hb.2 e he (List.mem_map.mpr ⟨k, hk, commitmentKey_injective heq⟩)

theorem SameKernels.revertBlock (h : SameKernels s d) (tip : Block P) :
    SameKernels (s.revertBlock tip).1 (d.persistRollback (s.revertBlock tip).2) := by
  show KeyedMap.Indexes _ _ (removeKernels s.kernels tip.excesses)
  have hkept : removeKernels s.kernels tip.excesses =
      s.kernels.filter fun k => commitmentKey k.excess ∉ tip.excesses.map commitmentKey := by
    rw [removeKernels_eq]
    congr 1
    funext k
    simp only [List.mem_map_of_injective commitmentKey_injective]
  rw [hkept]
  exact KeyedMap.Indexes.eraseAll h _

theorem kernels_persisted {bs : List (Block P)}
    (hC : EachDelivery (DeliveryMoves KernelsNew fun _ => True) bs) :
    (persisted bs).loadState.kernels.Perm (deliver bs).kernels := by
  have hsame : SameKernels (deliver bs) (persisted bs) := by
    apply persist_induct (D := fun _ => True) (fun _ _ => trivial) hC
    · exact KeyedMap.Indexes.empty
    · exact fun _ h => h
    · exact fun _ h _ hb => h.commitBlock _ hb
    · exact fun _ _ h _ => h.revertBlock _
  exact hsame.perm_sortedValues

/-! ## Both

The two conditions on a block that is applied, for the coins and for the kernels. -/

/-- The block can be written as one batch, and its kernels under their excesses. -/
def AppliesInOrder (s : ChainState P) (b : Block P) : Prop :=
  CreatesInOrder b ∧ KernelsNew s b

instance (s : ChainState P) (b : Block P) : Decidable (AppliesInOrder s b) :=
  inferInstanceAs (Decidable (CreatesInOrder b ∧ KernelsNew s b))

/-- **Restarting preserves the coins and the kernels**, after every run whose blocks can be batched. -/
theorem coins_persisted {bs : List (Block P)}
    (hC : EachDelivery (DeliveryMoves AppliesInOrder RevertsInOrder) bs) :
    (persisted bs).loadState.utxos = (deliver bs).utxos ∧
      (persisted bs).loadState.kernels.Perm (deliver bs).kernels := by
  refine ⟨utxos_persisted (hC.mono fun s b h => ?_), kernels_persisted (hC.mono fun s b h => ?_)⟩
  · exact h.mono (fun _ _ hb => hb.1) (fun _ htip => htip)
  · exact h.mono (fun _ _ hb => hb.2) (fun _ _ => trivial)

end ChainState

namespace Devnet

open ChainState

theorem forkRun_eleven_coins_persisted :
    (persisted (forkRun 11)).loadState.utxos = (deliver (forkRun 11)).utxos ∧
      (persisted (forkRun 11)).loadState.kernels.Perm (deliver (forkRun 11)).kernels :=
  coins_persisted (by decide +kernel)

/-- The second block mints the coin of the first once more, and a registration in it spends that
coin. -/
def respentCoin : List (Block crypto) :=
  let first := mine (deliver [genesis]) (coinbase 1 11)
  let second := mineNames (deliver [genesis, first]) (coinbase 2 11)
    [nameOp "alice" 3 (payment 540 11 12 5)]
  [genesis, first, second]

/-- In memory the coin is spent. After a restart it is there again, and a kernel is missing. -/
theorem respentCoin_comes_back :
    (deliver respentCoin).currentHeight = 2 ∧
      (persisted respentCoin).loadState.utxos ≠ (deliver respentCoin).utxos ∧
      ¬(persisted respentCoin).loadState.kernels.Perm (deliver respentCoin).kernels := by
  decide +kernel

end Devnet

end Haze
