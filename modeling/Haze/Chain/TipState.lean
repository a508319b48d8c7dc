import Haze.Chain.Ledger

/-!
# The tip hash and the state

A header hash covers the header. It says nothing about the body, so two nodes can hold different
states under one tip (`sameHeader_differ`); keeping the body out of the hash is what lets a node prune
it. Between blocks whose hashes tell them apart, the tip hash does determine the state: the chain
below it is determined, and the state is the replay of the chain. Reorganizations have to be exact for
that, each of the three ways in which a rollback can be inexact being excluded by its own condition.
-/

namespace Haze

namespace ChainState

variable {P : Crypto} {s : ChainState P} {b : Block P} {c : Candidate P} {chain : List (Block P)}

/-- The validators are those of the chain. -/
def Replayed (chain : List (Block P)) (validators : List (Validator P)) : Prop :=
  validators = validatorsOf chain

/-- If the delivery rolls blocks back, the snapshot that is restored is the validator set below the
lowest of them. -/
def ValidatorsKept (s : ChainState P) (b : Block P) : Prop :=
  ∀ r ∈ s.reorgOf b, r.1 ≠ 0 → s.snapshotBelow r.1 = s.snapshotBelow (r.1 - 1)

/-- If the delivery rolls blocks back, it leaves what was there before them. -/
def RollsBackExactly (s : ChainState P) (b : Block P) : Prop :=
  RevertsCleanly s b ∧ KernelsApart s b ∧ ValidatorsKept s b

instance (s : ChainState P) (b : Block P) : Decidable (ValidatorsKept s b) :=
  inferInstanceAs (Decidable (∀ r ∈ s.reorgOf b, r.1 ≠ 0 →
    s.snapshotBelow r.1 = s.snapshotBelow (r.1 - 1)))

instance (s : ChainState P) (b : Block P) : Decidable (RollsBackExactly s b) :=
  inferInstanceAs (Decidable (RevertsCleanly s b ∧ KernelsApart s b ∧ ValidatorsKept s b))

/-- The state is the replay of the chain. -/
structure Replays (s : ChainState P) (chain : List (Block P)) : Prop where
  coins : HoldsCoins s chain
  kernels : Records s chain
  validators : Validated Replayed s chain

theorem Replays.commitBlock {D : Block P → Prop} (h : Replays s chain) (htracks : Tracks D s chain)
    (hacc : Accepted s b c) : Replays (s.commitBlock b c).1 (b :: chain) := by
  refine ⟨h.coins.commitBlock hacc, h.kernels.commitBlock c, ?_⟩
  apply h.validators.commitBlock htracks hacc
  show nextValidators s.activeValidators b = nextValidators (validatorsOf chain) b
  rw [h.validators.current]

/-- A snapshot that agrees with the one above it answers for the chain that a rollback leaves. -/
theorem Validated.snapshotBelow_kept {D : Block P → Prop}
    {R : List (Block P) → List (Validator P) → Prop} {n : ℕ} (h : Validated R s chain)
    (hrolls : RollsBack D s chain n) (hn : n ≠ 0)
    (hkept : s.snapshotBelow n = s.snapshotBelow (n - 1)) : R (chain.drop n) (s.snapshotBelow n) := by
  -- the lowest block rolled back sits on `chain.drop n`
  have hlt : n - 1 < chain.length := by
    have := hrolls.le
    omega
  have hdrop : chain.drop (n - 1) = chain[n - 1] :: chain.drop n := by
    rw [List.drop_eq_getElem_cons hlt]
    congr 2
    omega
  rw [hkept]
  exact h.snapshotBelow_cons (hrolls.of_le (Nat.sub_le n 1)) hdrop

theorem Replays.revertBlocks {D : Block P → Prop} {n : ℕ} (h : Replays s chain)
    (hrolls : RollsBack D s chain n) (hclean : CleanTop n chain)
    (hapart : ∀ e ∈ (chain.take n).flatMap Block.excesses, e ∉ (chain.drop n).flatMap Block.excesses)
    (hkept : n ≠ 0 → s.snapshotBelow n = s.snapshotBelow (n - 1)) :
    Replays (s.revertBlocks (chain.take n)) (chain.drop n) := by
  refine ⟨h.coins.revertBlocks hrolls.pos hclean, ?_, h.validators.revertBlocks hrolls ?_⟩
  · have hrecords := h.kernels
    rw [← List.take_append_drop n chain] at hrecords
    exact hrecords.revertBlocks hapart
  · exact fun hn => h.validators.snapshotBelow_kept hrolls hn (hkept hn)

/-- After a run whose reorganizations are exact, the state is the replay of the chain it rests on. -/
theorem replays_deliver {bs : List (Block P)} (hD : DistinctHashes (· ∈ bs))
    (hC : EachDelivery RollsBackExactly bs) :
    ∃ chain, Tracks (· ∈ bs) (deliver bs) chain ∧ Replays (deliver bs) chain := by
  apply deliver_induct (Q := fun _ _ => True) hD hC
  · exact ⟨HoldsCoins.new, ⟨rfl, fun e => by simp [ChainState.new]⟩, ⟨rfl, Finmap.lookup_empty _⟩⟩
  · exact fun _ => deliveryApplies_true
  · intro s chain b _ _ h
    exact ⟨⟨h.coins.utxos, h.coins.covered⟩, ⟨h.kernels.kernels, h.kernels.excesses⟩,
      ⟨h.validators.current, h.validators.history⟩⟩
  · exact fun htracks h _ hcheck _ => h.commitBlock htracks (accepted_of_checkBlock hcheck)
  · intro s chain b htracks hexact r hr hrolls h
    obtain ⟨hclean, hapart, hkept⟩ := hexact
    have hchain := htracks.activeChain_eq hD
    have hclean' := hclean r hr
    have hapart' := hapart r hr
    rw [hchain] at hclean' hapart'
    exact h.revertBlocks hrolls hclean' hapart' (hkept r hr)

/-- **The tip hash determines the state**: two runs over blocks that their hashes tell apart, and
whose reorganizations are exact, agree as soon as their tips do. -/
theorem tip_determines_state {bs bs' : List (Block P)}
    (hD : DistinctHashes fun b => b ∈ bs ∨ b ∈ bs') (hC : EachDelivery RollsBackExactly bs)
    (hC' : EachDelivery RollsBackExactly bs')
    (htip : (deliver bs).lastBlockHash = (deliver bs').lastBlockHash) :
    (deliver bs).utxos = (deliver bs').utxos ∧
      (deliver bs).kernels.Perm (deliver bs').kernels ∧
      (deliver bs).activeValidators = (deliver bs').activeValidators := by
  obtain ⟨chain, htracks, h⟩ := replays_deliver (hD.mono fun _ => Or.inl) hC
  obtain ⟨chain', htracks', h'⟩ := replays_deliver (hD.mono fun _ => Or.inr) hC'
  have hlinked := htracks.linked
  rw [htip] at hlinked
  obtain rfl : chain = chain' :=
    hlinked.unique hD (htracks.keyed.mono fun _ => Or.inl) (htracks'.keyed.mono fun _ => Or.inr)
      htracks'.linked
  refine ⟨?_, ?_, ?_⟩
  · rw [h.coins.utxos, h'.coins.utxos]
  · rw [h.kernels.kernels, h'.kernels.kernels]
  · rw [h.validators.current, h'.validators.current]

end ChainState

namespace Devnet

open ChainState

/-- The fork of `forkRun`, delivered without the block that it replaces. -/
@[irreducible] def straightRun : List (Block crypto) :=
  [genesis, rivalBlock, secondBlock]

theorem forkRun_straightRun_agree :
    (deliver (forkRun 11)).utxos = (deliver straightRun).utxos ∧
      (deliver (forkRun 11)).kernels.Perm (deliver straightRun).kernels ∧
      (deliver (forkRun 11)).activeValidators = (deliver straightRun).activeValidators := by
  have hsub : straightRun.Sublist (forkRun 11) := by
    unfold straightRun forkRun
    exact .cons_cons _ (.cons _ (List.Sublist.refl _))
  have hruns : (zeroHash :: (forkRun 11).map Block.hash).Nodup ∧
      EachDelivery RollsBackExactly (forkRun 11) ∧ EachDelivery RollsBackExactly straightRun ∧
      (deliver (forkRun 11)).lastBlockHash = (deliver straightRun).lastBlockHash := by
    decide +kernel
  obtain ⟨hnodup, hfork, hstraight, htip⟩ := hruns
  have hD := distinctHashes_of_nodup hnodup
  exact tip_determines_state (hD.mono fun b hb => hb.elim id fun hb => hsub.subset hb)
    hfork hstraight htip

/-- Two blocks with one header: nothing in it depends on whom the coinbase pays. -/
def sameHeader : Block crypto × Block crypto :=
  (mine (deliver [genesis]) (coinbase 1 11), mine (deliver [genesis]) (coinbase 1 12))

theorem sameHeader_differ :
    (∀ b ∈ [genesis, sameHeader.1, sameHeader.2], ∀ b' ∈ [genesis, sameHeader.1, sameHeader.2],
        b.hash = b'.hash → b.header = b'.header) ∧
      (deliver [genesis, sameHeader.1]).lastBlockHash =
        (deliver [genesis, sameHeader.2]).lastBlockHash ∧
      (deliver [genesis, sameHeader.1]).utxos ≠ (deliver [genesis, sameHeader.2]).utxos := by
  decide +kernel

end Devnet

end Haze
