import Haze.Lib.Checked
import Mathlib.Algebra.BigOperators.Group.Finset.Basic
import Mathlib.Data.Finset.Basic
import Mathlib.Tactic.Abel
import Mathlib.Tactic.Tauto

/-!
# A set of coins moved by lists of transactions

The coins that exist are a finite set. A `Move` consumes a list of coins and creates another list;
`applyAll` runs a list of moves and `revertAll` takes them back — *in the same order*, not in the
opposite one. Three questions are answered here for coins of any type:

* when the revert is exact (`revertAll_applyAll_iff`): precisely when each created coin that existed
  before the run is consumed by its own move or by a later one (`Reabsorbed`);
* what a run of successful claims says about the coins claimed (`Claimed`): they exist, and none is
  claimed twice;
* what a run does to the total of a group-valued weight (`sum_applyAll`), when nothing is consumed
  twice and every created coin is new.
-/

/-- One transaction: the coins it consumes and the coins it creates. -/
structure Move (C : Type) where
  ins : List C
  outs : List C

namespace Coins

variable {C : Type} [DecidableEq C]

/-- Remove a list of coins. -/
def spend (coins : Finset C) (ins : List C) : Finset C :=
  ins.foldl (fun acc c => acc.erase c) coins

/-- Add a list of coins. -/
def create (coins : Finset C) (outs : List C) : Finset C :=
  outs.foldl (fun acc c => insert c acc) coins

/-- Consume, then create. -/
def apply (coins : Finset C) (t : Move C) : Finset C :=
  create (spend coins t.ins) t.outs

/-- Remove what was created, then restore what was consumed. -/
def revert (coins : Finset C) (t : Move C) : Finset C :=
  create (spend coins t.outs) t.ins

/-- Run the moves in order. -/
def applyAll (coins : Finset C) (ts : List (Move C)) : Finset C :=
  ts.foldl apply coins

/-- Revert the moves, first one first. -/
def revertAll (coins : Finset C) (ts : List (Move C)) : Finset C :=
  ts.foldl revert coins

/-! ## Membership

A coin is there after one move if the move creates it, or if it was there and is not consumed: creating
comes last. For a revert it is the other way round. -/

@[simp] theorem mem_spend {coins : Finset C} {ins : List C} {c : C} :
    c ∈ spend coins ins ↔ c ∈ coins ∧ c ∉ ins := by
  induction ins generalizing coins with
  | nil => simp [spend]
  | cons a ins ih =>
      show c ∈ spend (coins.erase a) ins ↔ _
      rw [ih, Finset.mem_erase, List.mem_cons]
      tauto

@[simp] theorem mem_create {coins : Finset C} {outs : List C} {c : C} :
    c ∈ create coins outs ↔ c ∈ outs ∨ c ∈ coins := by
  induction outs generalizing coins with
  | nil => simp [create]
  | cons a outs ih =>
      show c ∈ create (insert a coins) outs ↔ _
      rw [ih, Finset.mem_insert, List.mem_cons]
      tauto

theorem mem_apply {coins : Finset C} {t : Move C} {c : C} :
    c ∈ apply coins t ↔ c ∈ t.outs ∨ c ∈ coins ∧ c ∉ t.ins := by
  simp [apply]

theorem mem_revert {coins : Finset C} {t : Move C} {c : C} :
    c ∈ revert coins t ↔ c ∈ t.ins ∨ c ∈ coins ∧ c ∉ t.outs := by
  simp [revert]

@[simp] theorem applyAll_nil (coins : Finset C) : applyAll coins [] = coins := rfl

@[simp] theorem applyAll_cons (coins : Finset C) (t : Move C) (ts : List (Move C)) :
    applyAll coins (t :: ts) = applyAll (apply coins t) ts := rfl

@[simp] theorem revertAll_nil (coins : Finset C) : revertAll coins [] = coins := rfl

@[simp] theorem revertAll_cons (coins : Finset C) (t : Move C) (ts : List (Move C)) :
    revertAll coins (t :: ts) = revertAll (revert coins t) ts := rfl

/-- A coin of a run that no move creates was there at the start. -/
theorem mem_of_mem_applyAll {coins : Finset C} {ts : List (Move C)} {c : C}
    (h : c ∈ applyAll coins ts) (hout : ∀ t ∈ ts, c ∉ t.outs) : c ∈ coins := by
  induction ts generalizing coins with
  | nil => exact h
  | cons t ts ih =>
      have h' := ih h fun t' ht' => hout t' (List.mem_cons_of_mem _ ht')
      rcases mem_apply.mp h' with ho | ho
      · exact absurd ho (hout t List.mem_cons_self)
      · exact ho.1

/-- A coin that no move consumes survives the run. -/
theorem mem_applyAll_of_mem {coins : Finset C} {ts : List (Move C)} {c : C}
    (h : c ∈ coins) (hin : ∀ t ∈ ts, c ∉ t.ins) : c ∈ applyAll coins ts := by
  induction ts generalizing coins with
  | nil => exact h
  | cons t ts ih =>
      apply ih
      · exact mem_apply.mpr (Or.inr ⟨h, hin t List.mem_cons_self⟩)
      · exact fun t' ht' => hin t' (List.mem_cons_of_mem _ ht')

/-- The last move to mention `c` consumes it and does not create it again. -/
def Lost (c : C) : List (Move C) → Prop
  | [] => False
  | t :: ts => Lost c ts ∨ (c ∈ t.ins ∧ c ∉ t.outs ∧ ∀ t' ∈ ts, c ∉ t'.outs)

instance (c : C) : (ts : List (Move C)) → Decidable (Lost c ts)
  | [] => isFalse id
  | _ :: ts =>
      have : Decidable (Lost c ts) := instDecidableLost c ts
      inferInstanceAs (Decidable (_ ∨ _))

/-- What a run leaves behind: the coins that were there or were created, and are not lost. -/
theorem mem_applyAll {coins : Finset C} {ts : List (Move C)} {c : C} :
    c ∈ applyAll coins ts ↔ ¬ Lost c ts ∧ (c ∈ coins ∨ ∃ t ∈ ts, c ∈ t.outs) := by
  induction ts generalizing coins with
  | nil => simp [Lost]
  | cons t ts ih =>
      rw [applyAll_cons, ih, mem_apply]
      simp only [Lost, List.exists_mem_cons_iff]
      have hlater : (∀ t' ∈ ts, c ∉ t'.outs) ↔ ¬ ∃ t' ∈ ts, c ∈ t'.outs := by
        push Not
        rfl
      rw [hlater]
      generalize (∃ t' ∈ ts, c ∈ t'.outs) = later
      tauto

/-! ## Claims

A checker that goes through the inputs of a block keeps the set of those it has met. That set makes it
refuse a coin that is listed twice. -/

/-- Claim one coin: it has to exist and not to be taken already. -/
def claim (coins taken : Finset C) (c : C) : Option (Finset C) :=
  if c ∉ coins ∨ c ∈ taken then none else some (insert c taken)

/-- Claim a list of coins one after another. -/
def claimAll (coins taken : Finset C) (ins : List C) : Option (Finset C) :=
  ins.foldlM (claim coins) taken

/-- What a run of claims establishes. -/
structure Claimed (coins taken : Finset C) (ins : List C) (taken' : Finset C) : Prop where
  nodup : ins.Nodup
  exist : ∀ c ∈ ins, c ∈ coins
  untaken : ∀ c ∈ ins, c ∉ taken
  mem_iff : ∀ c, c ∈ taken' ↔ c ∈ taken ∨ c ∈ ins

omit [DecidableEq C] in
theorem Claimed.nil (coins taken : Finset C) : Claimed coins taken [] taken :=
  ⟨List.nodup_nil, by simp, by simp, by simp⟩

omit [DecidableEq C] in
theorem Claimed.append {coins taken taken' taken'' : Finset C} {ins ins' : List C}
    (h : Claimed coins taken ins taken') (h' : Claimed coins taken' ins' taken'') :
    Claimed coins taken (ins ++ ins') taken'' := by
  -- what is claimed later was not taken then, so it differs from all that was claimed before
  have hsep : ∀ c ∈ ins', c ∉ taken ∧ c ∉ ins := by
    intro c hc
    have hnot := h'.untaken c hc
    rw [h.mem_iff, not_or] at hnot
    exact hnot
  refine ⟨?_, ?_, ?_, ?_⟩
  · rw [List.nodup_append']
    exact ⟨h.nodup, h'.nodup, fun c hc hc' => (hsep c hc').2 hc⟩
  · intro c hc
    rcases List.mem_append.mp hc with hc | hc
    · exact h.exist c hc
    · exact h'.exist c hc
  · intro c hc
    rcases List.mem_append.mp hc with hc | hc
    · exact h.untaken c hc
    · exact (hsep c hc).1
  · intro c
    rw [h'.mem_iff, h.mem_iff, List.mem_append, or_assoc]

theorem claimed_of_claimAll {coins taken taken' : Finset C} {ins : List C}
    (h : claimAll coins taken ins = some taken') : Claimed coins taken ins taken' := by
  refine Checked.foldlM_induct (motive := Claimed coins taken) (Claimed.nil coins taken) ?_ h
  intro xs c t t' ht hc
  apply ht.append
  unfold claim at hc
  split at hc
  · cases hc
  next hok =>
    obtain ⟨hmem, hnot⟩ := not_or.mp hok
    cases hc
    refine ⟨List.nodup_singleton c, ?_, ?_, ?_⟩
    · simpa using hmem
    · simpa using hnot
    · intro x
      rw [Finset.mem_insert, List.mem_singleton, or_comm]

/-- Distinct coins that exist and are not taken can all be claimed. -/
theorem claimAll_eq_some {coins taken : Finset C} {ins : List C} (hnd : ins.Nodup)
    (hmem : ∀ c ∈ ins, c ∈ coins) (hnot : ∀ c ∈ ins, c ∉ taken) :
    claimAll coins taken ins = some (create taken ins) := by
  induction ins generalizing taken with
  | nil => rfl
  | cons a ins ih =>
      obtain ⟨ha, hnd⟩ := List.nodup_cons.mp hnd
      obtain ⟨hmema, hmem⟩ := List.forall_mem_cons.mp hmem
      obtain ⟨hnota, hnot⟩ := List.forall_mem_cons.mp hnot
      -- the first claim goes through, and only its own coin is taken by it
      have hclaim : claim coins taken a = some (insert a taken) := by
        rw [claim, if_neg]
        exact not_or.mpr ⟨not_not.mpr hmema, hnota⟩
      show (a :: ins).foldlM (claim coins) taken = _
      rw [List.foldlM_cons, hclaim]
      refine ih hnd hmem ?_
      intro c hc hc'
      rcases Finset.mem_insert.mp hc' with rfl | hc'
      · exact ha hc
      · exact hnot c hc hc'

/-! ## When the revert is exact

Reverting the moves in their own order goes wrong where a later revert undoes an earlier one: a coin that
some move creates is taken away, also if it was there before. -/

/-- The last move to mention `c` consumes it, so reverting the moves in order ends by putting `c`
back. -/
def Restores (c : C) : List (Move C) → Prop
  | [] => False
  | t :: ts => Restores c ts ∨ (c ∈ t.ins ∧ ∀ t' ∈ ts, c ∉ t'.outs)

instance (c : C) : (ts : List (Move C)) → Decidable (Restores c ts)
  | [] => isFalse id
  | _ :: ts =>
      have : Decidable (Restores c ts) := instDecidableRestores c ts
      inferInstanceAs (Decidable (_ ∨ _))

theorem mem_revertAll {coins : Finset C} {ts : List (Move C)} {c : C} :
    c ∈ revertAll coins ts ↔ Restores c ts ∨ (c ∈ coins ∧ ∀ t ∈ ts, c ∉ t.outs) := by
  induction ts generalizing coins with
  | nil => simp [Restores]
  | cons t ts ih =>
      rw [revertAll_cons, ih, mem_revert]
      simp only [Restores, List.forall_mem_cons]
      tauto

omit [DecidableEq C] in
theorem Restores.exists_mem {c : C} {ts : List (Move C)} (h : Restores c ts) :
    ∃ t ∈ ts, c ∈ t.ins := by
  induction ts with
  | nil => cases h
  | cons t ts ih =>
      rcases h with h | h
      · obtain ⟨t', ht', hc⟩ := ih h
        exact ⟨t', List.mem_cons_of_mem _ ht', hc⟩
      · exact ⟨t, List.mem_cons_self, h.1⟩

omit [DecidableEq C] in
theorem restores_of_mem {c : C} {ts : List (Move C)} {t' : Move C} (ht' : t' ∈ ts)
    (hin : c ∈ t'.ins) (hno : ∀ t ∈ ts, c ∉ t.outs) : Restores c ts := by
  induction ts with
  | nil => cases ht'
  | cons t ts ih =>
      rw [List.forall_mem_cons] at hno
      rcases List.mem_cons.mp ht' with rfl | ht'
      · exact Or.inr ⟨hin, hno.2⟩
      · exact Or.inl (ih ht' hno.2)

/-- Each created coin that was in `coins` is consumed by its own move or by a later one. -/
def Reabsorbed (coins : Finset C) : List (Move C) → Prop
  | [] => True
  | t :: ts => (∀ c ∈ t.outs, c ∈ coins → ∃ t' ∈ t :: ts, c ∈ t'.ins) ∧ Reabsorbed coins ts

instance (coins : Finset C) : (ts : List (Move C)) → Decidable (Reabsorbed coins ts)
  | [] => isTrue trivial
  | _ :: ts =>
      have : Decidable (Reabsorbed coins ts) := instDecidableReabsorbed coins ts
      inferInstanceAs (Decidable (_ ∧ _))

/-- The two readings of "reverting loses nothing" agree on each coin: either no move creates it, or
the last move to mention it consumes it. -/
theorem reabsorbed_iff {coins : Finset C} {ts : List (Move C)} :
    Reabsorbed coins ts ↔ ∀ c ∈ coins, Restores c ts ∨ ∀ t ∈ ts, c ∉ t.outs := by
  induction ts with
  | nil => simp [Reabsorbed]
  | cons t ts ih =>
      simp only [Reabsorbed, ih, Restores, List.forall_mem_cons, List.exists_mem_cons_iff]
      constructor
      · rintro ⟨hout, hrest⟩ c hc
        by_cases hr : Restores c ts
        -- the rest does not put it back, so it is not created there, and this move has to consume it
        · exact Or.inl (Or.inl hr)
        · have hno : ∀ t' ∈ ts, c ∉ t'.outs := (hrest c hc).resolve_left hr
          by_cases ho : c ∈ t.outs
          · rcases hout c ho hc with h | ⟨t', ht', hin⟩
            · exact Or.inl (Or.inr ⟨h, hno⟩)
            · apply absurd ?_ hr
              exact restores_of_mem ht' hin hno
          · exact Or.inr ⟨ho, hno⟩
      · intro h
        refine ⟨?_, ?_⟩
        · intro c ho hc
          rcases h c hc with (hr | hr) | hr
          · exact Or.inr hr.exists_mem
          · exact Or.inl hr.1
          · exact absurd ho hr.1
        · intro c hc
          rcases h c hc with (hr | hr) | hr
          · exact Or.inl hr
          · exact Or.inr hr.2
          · exact Or.inr hr.2

/-- **Reverting in order is exact iff nothing pre-existing is created for good.** The moves only
consume coins that exist at the start; nothing else is assumed of them. -/
theorem revertAll_applyAll_iff {coins : Finset C} {ts : List (Move C)}
    (hins : ∀ t ∈ ts, ∀ c ∈ t.ins, c ∈ coins) :
    revertAll (applyAll coins ts) ts = coins ↔ Reabsorbed coins ts := by
  rw [reabsorbed_iff, Finset.ext_iff]
  constructor
  · intro h c hc
    rcases mem_revertAll.mp ((h c).mpr hc) with hr | hr
    · exact Or.inl hr
    · exact Or.inr hr.2
  · intro h c
    rw [mem_revertAll]
    constructor
    · rintro (hr | ⟨hmem, hno⟩)
      · obtain ⟨t, ht, hc⟩ := hr.exists_mem
        exact hins t ht c hc
      · exact mem_of_mem_applyAll hmem hno
    · intro hc
      rcases h c hc with hr | hno
      · exact Or.inl hr
      -- no move creates `c`: either some move consumes it, or it never left
      · by_cases hin : ∃ t ∈ ts, c ∈ t.ins
        · obtain ⟨t, ht, hct⟩ := hin
          exact Or.inl (restores_of_mem ht hct hno)
        · push Not at hin
          exact Or.inr ⟨mem_applyAll_of_mem hc hin, hno⟩

/-! ## One batch for all moves

A store may write all removals of a block first and all additions after them. That is what the moves do only
if no coin is consumed after it was created. -/

/-- Remove all that the moves consume, then add all that they create. -/
def applyBatch (coins : Finset C) (ts : List (Move C)) : Finset C :=
  create (spend coins (ts.flatMap Move.ins)) (ts.flatMap Move.outs)

/-- Remove all that the moves create, then restore all that they consume. -/
def revertBatch (coins : Finset C) (ts : List (Move C)) : Finset C :=
  create (spend coins (ts.flatMap Move.outs)) (ts.flatMap Move.ins)

omit [DecidableEq C] in
/-- A coin that no move creates is lost as soon as one consumes it. -/
theorem lost_iff_of_not_created {c : C} {ts : List (Move C)} (h : ∀ t ∈ ts, c ∉ t.outs) :
    Lost c ts ↔ ∃ t ∈ ts, c ∈ t.ins := by
  induction ts with
  | nil => simp [Lost]
  | cons t ts ih =>
      obtain ⟨ht, hts⟩ := List.forall_mem_cons.mp h
      simp only [Lost, ih hts, List.exists_mem_cons_iff]
      constructor
      · rintro (hlater | ⟨hin, -, -⟩)
        · exact Or.inr hlater
        · exact Or.inl hin
      · rintro (hin | hlater)
        · exact Or.inr ⟨hin, ht, hts⟩
        · exact Or.inl hlater

/-- **A batch does what the moves do** exactly when they lose nothing that they create. -/
theorem applyBatch_eq_iff {coins : Finset C} {ts : List (Move C)} :
    applyBatch coins ts = applyAll coins ts ↔ ∀ c ∈ ts.flatMap Move.outs, ¬Lost c ts := by
  simp only [Finset.ext_iff, applyBatch, mem_create, mem_spend, mem_applyAll, List.mem_flatMap]
  constructor
  · intro h c hc
    exact ((h c).mp (Or.inl hc)).1
  · intro h c
    by_cases hout : ∃ t ∈ ts, c ∈ t.outs
    · exact ⟨fun _ => ⟨h c hout, Or.inr hout⟩, fun _ => Or.inl hout⟩
    · have hno : ∀ t ∈ ts, c ∉ t.outs := by
        push Not at hout
        exact hout
      rw [lost_iff_of_not_created hno, or_iff_right hout, or_iff_left hout, and_comm]

/-- **A batch takes back what reverting in order does** exactly when the moves create for good nothing
that they have consumed. -/
theorem revertBatch_eq_iff {coins : Finset C} {ts : List (Move C)} :
    revertBatch coins ts = revertAll coins ts ↔ ∀ c ∈ ts.flatMap Move.ins, Restores c ts := by
  simp only [Finset.ext_iff, revertBatch, mem_create, mem_spend, mem_revertAll, List.mem_flatMap]
  constructor
  · intro h c hc
    rcases (h c).mp (Or.inl hc) with hr | ⟨-, hno⟩
    · exact hr
    · obtain ⟨t, ht, hin⟩ := hc
      exact restores_of_mem ht hin hno
  · intro h c
    constructor
    · rintro (hin | ⟨hmem, hno⟩)
      · exact Or.inl (h c hin)
      · push Not at hno
        exact Or.inr ⟨hmem, hno⟩
    · rintro (hr | ⟨hmem, hno⟩)
      · exact Or.inl hr.exists_mem
      · refine Or.inr ⟨hmem, ?_⟩
        push Not
        exact hno

/-- A batch keeps at least what the moves keep. -/
theorem applyAll_subset_applyBatch {coins coins' : Finset C} (h : coins ⊆ coins')
    (ts : List (Move C)) : applyAll coins ts ⊆ applyBatch coins' ts := by
  intro c hc
  obtain ⟨hkept, hc⟩ := mem_applyAll.mp hc
  rw [applyBatch, mem_create, mem_spend, List.mem_flatMap, List.mem_flatMap]
  by_cases hout : ∃ t ∈ ts, c ∈ t.outs
  · exact Or.inl hout
  · refine Or.inr ⟨h (hc.resolve_right hout), fun hin => hkept ?_⟩
    push Not at hout
    exact (lost_iff_of_not_created hout).mpr hin

theorem revertAll_subset_revertBatch {coins coins' : Finset C} (h : coins ⊆ coins')
    (ts : List (Move C)) : revertAll coins ts ⊆ revertBatch coins' ts := by
  intro c hc
  rw [revertBatch, mem_create, mem_spend, List.mem_flatMap, List.mem_flatMap]
  rcases mem_revertAll.mp hc with hr | ⟨hmem, hno⟩
  · exact Or.inl hr.exists_mem
  · refine Or.inr ⟨h hmem, ?_⟩
    push Not
    exact hno

/-! ## Totals

Where the coins have weights, a run changes their total by what enters and leaves. -/

/-- When no created coin is also consumed, a run removes what is consumed and adds what is
created. -/
theorem applyAll_eq {coins : Finset C} {ts : List (Move C)}
    (hdisj : ∀ c ∈ ts.flatMap Move.outs, c ∉ ts.flatMap Move.ins) :
    applyAll coins ts =
      (coins \ (ts.flatMap Move.ins).toFinset) ∪ (ts.flatMap Move.outs).toFinset := by
  ext c
  simp only [Finset.mem_union, Finset.mem_sdiff, List.mem_toFinset]
  -- a coin that is created by one move is consumed by none, so the moves do not disturb each other
  induction ts generalizing coins with
  | nil => simp
  | cons t ts ih =>
      simp only [List.flatMap_cons, List.mem_append] at hdisj ⊢
      rw [applyAll_cons, ih, mem_apply]
      · have := hdisj c
        tauto
      · exact fun c hc hc' => hdisj c (Or.inr hc) (Or.inr hc')

/-- **What a run does to a total.** The weights consumed leave it and the weights created enter it,
when the consumed coins are distinct and present and the created coins distinct and absent. -/
theorem sum_applyAll {M : Type} [AddCommGroup M] (w : C → M) {coins : Finset C}
    {ts : List (Move C)} (hin : (ts.flatMap Move.ins).Nodup)
    (hmem : ∀ c ∈ ts.flatMap Move.ins, c ∈ coins) (hout : (ts.flatMap Move.outs).Nodup)
    (hnew : ∀ c ∈ ts.flatMap Move.outs, c ∉ coins) :
    ∑ c ∈ applyAll coins ts, w c =
      ∑ c ∈ coins, w c - ((ts.flatMap Move.ins).map w).sum + ((ts.flatMap Move.outs).map w).sum := by
  have hsub : (ts.flatMap Move.ins).toFinset ⊆ coins := by
    intro c hc
    exact hmem c (List.mem_toFinset.mp hc)
  have hdis : Disjoint (coins \ (ts.flatMap Move.ins).toFinset) (ts.flatMap Move.outs).toFinset := by
    rw [Finset.disjoint_right]
    intro c hc hc'
    exact hnew c (List.mem_toFinset.mp hc) (Finset.mem_sdiff.mp hc').1
  rw [applyAll_eq fun c hc hc' => hnew c hc (hmem c hc'), Finset.sum_union hdis,
    List.sum_toFinset w hout, ← List.sum_toFinset w hin, ← Finset.sum_sdiff hsub]
  abel

end Coins
