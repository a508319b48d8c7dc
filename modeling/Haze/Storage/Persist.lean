import Haze.Chain.Runs
import Haze.Storage.Disk

/-!
# Runs that are persisted

A node hands every outcome of `apply_block` to `persist_apply_result`, so that memory and disk move
together: `persisted` is the disk after a run. `persist_induct` is the induction rule for the two. A
relation between them has to survive a block entering the database in memory, a block applied on both
sides and a tip rolled back on both sides.
-/

namespace Haze

variable {P : Crypto}

/-- One delivery, in memory and on disk. -/
def persistStep (n : ChainState P × Storage P) (b : Block P) : ChainState P × Storage P :=
  let (s, result) := n.1.applyBlock b
  (s, n.2.persistApplyResult result)

/-- The disk after a sequence of `apply_block` calls on a fresh node, all of them persisted. -/
def persisted (bs : List (Block P)) : Storage P :=
  (bs.foldl persistStep (ChainState.new, Storage.empty)).2

theorem foldl_persistStep_fst (bs : List (Block P)) :
    (bs.foldl persistStep (ChainState.new, Storage.empty)).1 = ChainState.deliver bs := by
  induction bs using List.reverseRecOn with
  | nil => rfl
  | append_singleton bs b ih =>
      rw [List.foldl_append, List.foldl_cons, List.foldl_nil, ChainState.deliver_concat, ← ih]
      rfl

theorem persisted_concat (bs : List (Block P)) (b : Block P) :
    persisted (bs ++ [b]) =
      (persisted bs).persistApplyResult ((ChainState.deliver bs).applyBlock b).2 := by
  unfold persisted
  rw [List.foldl_append, List.foldl_cons, List.foldl_nil, ← foldl_persistStep_fst]
  rfl

namespace ChainState

/-- The blocks that `n` rollbacks take off, tip first. -/
def tips : ℕ → ChainState P → List (Block P)
  | 0, _ => []
  | n + 1, s =>
      match s.blocks.lookup s.lastBlockHash with
      | none => []
      | some tip => tip :: tips n (s.revertBlock tip).1

/-- `Q` holds of every block that a delivery applies, on the state it is applied on, and `R` of every
block that it rolls back. -/
def DeliveryMoves (Q : ChainState P → Block P → Prop) (R : Block P → Prop) (s : ChainState P)
    (b : Block P) : Prop :=
  (s.isLinear b = true → Q (s.storeBlock b) b) ∧
    ∀ r ∈ s.reorgOf b, (∀ tip ∈ (s.storeBlock b).tips r.1, R tip) ∧
      EachApplied Q r.2 ((s.storeBlock b).revertBlocks ((s.storeBlock b).tips r.1))

instance (Q : ChainState P → Block P → Prop) (R : Block P → Prop) [∀ s b, Decidable (Q s b)]
    [DecidablePred R] (s : ChainState P) (b : Block P) : Decidable (DeliveryMoves Q R s b) :=
  inferInstanceAs (Decidable ((s.isLinear b = true → Q (s.storeBlock b) b) ∧
    ∀ r ∈ s.reorgOf b, (∀ tip ∈ (s.storeBlock b).tips r.1, R tip) ∧
      EachApplied Q r.2 ((s.storeBlock b).revertBlocks ((s.storeBlock b).tips r.1))))

theorem DeliveryMoves.mono {Q Q' : ChainState P → Block P → Prop} {R R' : Block P → Prop}
    {s : ChainState P} {b : Block P} (h : DeliveryMoves Q R s b) (hQ : ∀ s b, Q s b → Q' s b)
    (hR : ∀ tip, R tip → R' tip) : DeliveryMoves Q' R' s b := by
  refine ⟨fun hlin => hQ _ _ (h.1 hlin), fun r hr => ?_⟩
  obtain ⟨htips, hfork⟩ := h.2 r hr
  exact ⟨fun tip htip => hR tip (htips tip htip), hfork.mono hQ⟩

/-- Without conditions, every delivery qualifies. -/
theorem deliveryMoves_true {s : ChainState P} {b : Block P} :
    DeliveryMoves (fun _ _ => True) (fun _ => True) s b :=
  ⟨fun _ => trivial, fun _ _ => ⟨fun _ _ => trivial, eachApplied_true _ _⟩⟩

/-! ## The induction rule

Memory and disk are taken through a run side by side. A relation between the two holds at the end if it
holds at the start and survives the three things a delivery is made of: storing a block, applying one and
taking one back. -/

section Rule

variable {D : Block P → Prop} {Q : ChainState P → Block P → Prop} {R : Block P → Prop}
  {J : ChainState P → Storage P → Prop} {s s' : ChainState P} {d : Storage P}

/-- The database holds blocks of `D` under their hashes, and memory and disk are related. -/
structure Joined (D : Block P → Prop) (J : ChainState P → Storage P → Prop) (s : ChainState P)
    (d : Storage P) : Prop where
  keyed : Links.Keyed (blockLinks P) D s.blocks
  related : J s d

theorem Joined.rollbackAll
    (rollback : ∀ {s : ChainState P} {d : Storage P} {tip : Block P}, s.currentHeight ≠ 0 →
      s.blocks.lookup s.lastBlockHash = some tip → J s d → R tip →
        J (s.revertBlock tip).1 (d.persistRollback (s.revertBlock tip).2))
    {hashes : List Bytes32} {δs : List (RollbackDelta P)} (h : Joined D J s d)
    (hR : ∀ tip ∈ s.tips hashes.length, R tip)
    (hroll : ChainState.rollbackAll hashes s = some (s', δs)) :
    s' = s.revertBlocks (s.tips hashes.length) ∧
      Joined D J s' (δs.foldl Storage.persistRollback d) := by
  induction hashes generalizing s d δs with
  | nil =>
      cases hroll
      exact ⟨rfl, h⟩
  | cons hash hashes ih =>
      simp only [ChainState.rollbackAll, Option.bind_eq_bind, Option.bind_eq_some_iff,
        Option.pure_def, Option.some.injEq] at hroll
      obtain ⟨⟨s₁, δ₁⟩, hfirst, ⟨s₂, δ₂⟩, hrest, heq⟩ := hroll
      obtain ⟨rfl, rfl⟩ := Prod.mk.inj heq
      unfold rollbackBlock at hfirst
      split at hfirst
      · cases hfirst
      next hpos =>
        obtain ⟨tip, htip, hrevert⟩ := Option.map_eq_some_iff.mp hfirst
        obtain ⟨rfl, rfl⟩ : (s.revertBlock tip).1 = s₁ ∧ (s.revertBlock tip).2 = δ₁ := by
          rw [hrevert]
          exact ⟨rfl, rfl⟩
        have htips : s.tips (hash :: hashes).length =
            tip :: (s.revertBlock tip).1.tips hashes.length := by
          simp only [List.length_cons, tips, htip]
        rw [htips, List.forall_mem_cons] at hR
        rw [htips]
        have hstep : Joined D J (s.revertBlock tip).1 (d.persistRollback (s.revertBlock tip).2) :=
          ⟨h.keyed, rollback hpos htip h.related hR.1⟩
        have hall := ih hstep hR.2 hrest
        exact hall

theorem Joined.applyAll
    (apply : ∀ {s : ChainState P} {d : Storage P} {b : Block P} {c : Candidate P}, D b → J s d →
      s.checkBlock b = some c → Q s b →
        J (s.commitBlock b c).1 (d.persistApplied (s.commitBlock b c).2))
    {fork : List (Block P)} {δs : List (AppliedDelta P)} (h : Joined D J s d)
    (hfork : ∀ b ∈ fork, D b) (hQ : EachApplied Q fork s)
    (happly : ChainState.applyAll fork s = some (s', δs)) :
    Joined D J s' (δs.foldl Storage.persistApplied d) := by
  induction fork generalizing s d δs with
  | nil =>
      cases happly
      exact h
  | cons b fork ih =>
      simp only [ChainState.applyAll, Option.bind_eq_bind, Option.bind_eq_some_iff, Option.pure_def,
        Option.some.injEq] at happly
      obtain ⟨⟨s₁, δ₁⟩, hfirst, ⟨s₂, δ₂⟩, hrest, heq⟩ := happly
      obtain ⟨rfl, rfl⟩ := Prod.mk.inj heq
      obtain ⟨c, hcheck, hcommit⟩ := applyLinearBlock_eq_some_iff.mp hfirst
      obtain ⟨rfl, rfl⟩ : (s.commitBlock b c).1 = s₁ ∧ (s.commitBlock b c).2 = δ₁ := by
        rw [hcommit]
        exact ⟨rfl, rfl⟩
      obtain ⟨hb, hfork⟩ := List.forall_mem_cons.mp hfork
      have hstep : Joined D J (s.commitBlock b c).1 (d.persistApplied (s.commitBlock b c).2) :=
        ⟨h.keyed.insert hb, apply hb h.related hcheck hQ.1⟩
      have hall := ih hstep hfork (hQ.2 _ hfirst) hrest
      exact hall

/-- **The induction rule for persisted runs.** -/
theorem persist_induct {bs : List (Block P)} (hD : ∀ b ∈ bs, D b)
    (hC : EachDelivery (DeliveryMoves Q R) bs) (new : J ChainState.new Storage.empty)
    (store : ∀ {s : ChainState P} {d : Storage P} {b : Block P}, D b → J s d → J (s.storeBlock b) d)
    (apply : ∀ {s : ChainState P} {d : Storage P} {b : Block P} {c : Candidate P}, D b → J s d →
      s.checkBlock b = some c → Q s b →
        J (s.commitBlock b c).1 (d.persistApplied (s.commitBlock b c).2))
    (rollback : ∀ {s : ChainState P} {d : Storage P} {tip : Block P}, s.currentHeight ≠ 0 →
      s.blocks.lookup s.lastBlockHash = some tip → J s d → R tip →
        J (s.revertBlock tip).1 (d.persistRollback (s.revertBlock tip).2)) :
    J (deliver bs) (persisted bs) := by
  suffices hjoined : Joined D J (deliver bs) (persisted bs) from hjoined.related
  induction bs using List.reverseRecOn with
  | nil => exact ⟨Links.Keyed.empty, new⟩
  | append_singleton bs b ih =>
      obtain ⟨hC, hlast⟩ := eachDelivery_concat hC
      rw [List.forall_mem_append] at hD
      obtain ⟨hD, hb⟩ := hD
      have hDb : D b := hb b (List.mem_singleton_self b)
      have h := ih hD hC
      have hstored : Joined D J ((deliver bs).storeBlock b) (persisted bs) :=
        ⟨h.keyed.insert hDb, store hDb h.related⟩
      rw [deliver_concat, persisted_concat]
      have houtcome := outcome_applyBlock (deliver bs) b
      generalize (deliver bs).applyBlock b = r at houtcome ⊢
      cases houtcome with
      | invalid _ => exact h
      | refused _ => exact hstored
      | linear hlin hlinear =>
          obtain ⟨c, hcheck, hcommit⟩ := applyLinearBlock_eq_some_iff.mp hlinear
          obtain ⟨rfl, rfl⟩ := Prod.mk.inj hcommit.symm
          exact ⟨hstored.keyed.insert hDb, apply hDb hstored.related hcheck (hlast.1 hlin)⟩
      | reorg _ hplan hpath hroll happly =>
          obtain ⟨hR, hQ⟩ := hlast.2 _ hplan
          obtain ⟨rfl, hrolled⟩ := hstored.rollbackAll rollback hR hroll
          have hfork := forall_mem_reorgWalk hstored.keyed (by simpa using hDb) hpath
          exact hrolled.applyAll apply hfork hQ happly

end Rule

end ChainState

end Haze
