import Haze.Chain.Accept
import Haze.Devnet

/-!
# What an accepted block may spend

Coins leave the UTXO set through three lists: the body's inputs and the fee-payment inputs of name
and mint operations. The fee payments are claimed one coin at a time against a shared set; the body
is checked as a whole. Both gaps below follow from that: the body may list a coin twice, and the
vesting rule looks at the body alone.
-/

namespace Haze

variable {P : Crypto}

theorem Block.consumed_eq (b : Block P) :
    b.consumed = b.body.spent ++ b.payments.flatMap Transaction.spent := by
  simp [Block.consumed, Block.transactions]

namespace ChainState

variable {s : ChainState P} {b : Block P} {c : Candidate P}

/-! ## Double spends inside one block

The coins a block consumes are the inputs of its body and the inputs of the fee payments. Payments are
checked against a set that starts with the body's inputs and grows with each payment, so they never repeat a
coin. The body's own inputs are only tested for existence, one by one. -/

/-- Every coin a block consumes exists before it. -/
theorem Accepted.consumed_mem (h : Accepted s b c) (hpos : b.height ≠ 0) :
    ∀ x ∈ b.consumed, x ∈ s.utxos := by
  intro x hx
  obtain ⟨taken, hpaid⟩ := h.paid
  rw [Block.consumed_eq] at hx
  rcases List.mem_append.mp hx with hx | hx
  · exact h.bodyInputs hpos x hx
  · exact hpaid.exist x hx

/-- Only the body can repeat a coin: the payments repeat none, neither among themselves nor one of
the body's. -/
theorem Accepted.consumed_nodup (h : Accepted s b c) :
    b.consumed.Nodup ↔ b.body.spent.Nodup := by
  obtain ⟨taken, hpaid⟩ := h.paid
  rw [Block.consumed_eq, List.nodup_append']
  constructor
  · exact fun hnd => hnd.1
  · intro hbody
    refine ⟨hbody, hpaid.nodup, ?_⟩
    intro x hx hx'
    exact hpaid.untaken x hx' (List.mem_toFinset.mpr hx)

theorem isSome_applyLinearBlock (h : (s.applyLinearBlock b).isSome = true) :
    ∃ c, Accepted s b c := by
  obtain ⟨⟨s', δ⟩, heq⟩ := Option.isSome_iff_exists.mp h
  obtain ⟨c, hc, -⟩ := applyLinearBlock_eq_some heq
  exact ⟨c, hc⟩

/-- **No double spend inside a block**, exactly when the body does not repeat an input. -/
theorem consumed_once_iff (hpos : b.height > 0) (h : (s.applyLinearBlock b).isSome = true) :
    (b.consumed.Nodup ∧ ∀ x ∈ b.consumed, x ∈ s.utxos) ↔ b.body.spent.Nodup := by
  obtain ⟨c, hacc⟩ := isSome_applyLinearBlock h
  have hne : b.height ≠ 0 := UInt64.pos_iff_ne_zero.mp hpos
  rw [hacc.consumed_nodup]
  exact ⟨fun hnd => hnd.1, fun hnd => ⟨hnd, hacc.consumed_mem hne⟩⟩

end ChainState

namespace Devnet

open ChainState

/-- The bootstrap coin is moved by the body and the other genesis coin pays for a name. -/
def honestBlock : Block crypto :=
  mineNames (deliver [genesis]) ⟨[⟨genesisDefault crypto⟩], [output 1_000_540 1], [kernel 41 0]⟩
    [nameOp "alice" 3 (payment (genesisTotalMinted - 1_000_000) 7 3 5)]

theorem honestBlock_accepted :
    ((deliver [genesis]).applyLinearBlock honestBlock).isSome = true ∧ honestBlock.height > 0 ∧
      honestBlock.body.spent.Nodup ∧
      ∀ tx ∈ honestBlock.payments, spendsLockedOutputEarly tx.inputs honestBlock.height = false := by
  decide +kernel

theorem honestBlock_consumes_once :
    honestBlock.consumed.Nodup ∧ ∀ x ∈ honestBlock.consumed, x ∈ (deliver [genesis]).utxos := by
  obtain ⟨happly, hpos, hnodup, -⟩ := honestBlock_accepted
  exact (consumed_once_iff hpos happly).mpr hnodup

/-- The body lists the bootstrap coin twice and pays out twice its value. -/
def inflatingBlock : Block crypto :=
  mine (deliver [genesis])
    ⟨[⟨genesisDefault crypto⟩, ⟨genesisDefault crypto⟩], [output 2_000_540 1], [kernel 83 0]⟩

theorem inflatingBlock_accepted :
    inflatingBlock.height > 0 ∧
      ((deliver [genesis]).applyLinearBlock inflatingBlock).isSome = true ∧
      ¬ inflatingBlock.consumed.Nodup := by
  decide +kernel

end Devnet

/-! ## The vesting timelock

Vesting tranches of genesis carry an unlock height. The rule is asked of the body's inputs only; a fee
payment is a transaction of its own, and its inputs are not looked at. -/

/-- No coin of the list is a genesis tranche that is still locked at this height. -/
def Unlocked (P : Crypto) (cs : List (Commitment P)) (height : UInt64) : Prop :=
  ∀ c ∈ cs, ∀ l ∈ lockedGenesisOutputs P, c = l.1 → ¬ l.2 > height

theorem spendsLockedOutputEarly_eq_false {tx : Transaction P} {height : UInt64} :
    spendsLockedOutputEarly tx.inputs height = false ↔ Unlocked P tx.spent height := by
  simp only [spendsLockedOutputEarly, Unlocked, Transaction.spent, List.any_eq_false,
    List.forall_mem_map, Bool.and_eq_true, beq_iff_eq, decide_eq_true_eq, not_and,
    Bool.not_eq_true, gt_iff_lt]

namespace ChainState

variable {s : ChainState P} {b : Block P}

/-- **The timelock**, exactly when no fee payment spends a locked tranche: the payments are the two
lists the rule is not asked about. -/
theorem timelock_iff (h : (s.applyLinearBlock b).isSome = true) :
    Unlocked P b.consumed b.height ↔
      ∀ tx ∈ b.payments, spendsLockedOutputEarly tx.inputs b.height = false := by
  obtain ⟨c, hacc⟩ := isSome_applyLinearBlock h
  have hbody : Unlocked P b.body.spent b.height :=
    spendsLockedOutputEarly_eq_false.mp hacc.bodyUnlocked
  simp only [spendsLockedOutputEarly_eq_false]
  rw [Block.consumed_eq]
  constructor
  · intro hall tx htx x hx
    exact hall x (List.mem_append_right _ (List.mem_flatMap.mpr ⟨tx, htx, hx⟩))
  · intro hpay x hx
    rcases List.mem_append.mp hx with hx | hx
    · exact hbody x hx
    · obtain ⟨tx, htx, hx⟩ := List.mem_flatMap.mp hx
      exact hpay tx htx x hx

end ChainState

namespace Devnet

open ChainState

theorem honestBlock_unlocked : Unlocked crypto honestBlock.consumed honestBlock.height := by
  obtain ⟨happly, -, -, hpayments⟩ := honestBlock_accepted
  exact (timelock_iff happly).mpr hpayments

/-- The first block after genesis pays for a name with the first team tranche. -/
def earlyBlock : Block crypto :=
  mineNames (deliver [vestedGenesis]) (coinbase 1 11)
    [nameOp "alice" 3 (payment trancheValue trancheBlinding 3 5)]

theorem earlyBlock_accepted :
    ((deliver [vestedGenesis]).applyLinearBlock earlyBlock).isSome = true ∧
      ¬ Unlocked crypto earlyBlock.consumed earlyBlock.height := by
  have hblock : ((deliver [vestedGenesis]).applyLinearBlock earlyBlock).isSome = true ∧
      Commitment.new (P := crypto) trancheValue trancheBlinding ∈ earlyBlock.consumed ∧
      (Commitment.new (P := crypto) trancheValue trancheBlinding, 1577880) ∈
        lockedGenesisOutputs crypto ∧
      1577880 > earlyBlock.height := by
    decide +kernel
  obtain ⟨happly, hmem, hlock, hearly⟩ := hblock
  exact ⟨happly, fun hall => hall _ hmem _ hlock rfl hearly⟩

end Devnet

end Haze
