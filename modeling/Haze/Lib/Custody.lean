import Mathlib.Data.List.Induction
import Mathlib.Data.List.Nodup

/-!
# Custody that moves by signed authorizations

Things are held by owners. An authorization names a thing and a new owner, and it takes effect when
its signature verifies under the key of whoever holds the thing at that moment. Nothing marks an
authorization as used, so what keeps it from taking effect again is only that the thing has moved on:
`single_use` says that this is enough as long as a thing never comes to an owner whose key verifies an
authorization already used for it.
-/

namespace Custody

variable {K A O : Type}

/-- What an authorization says, and under which keys it verifies. -/
structure Scheme (K A O : Type) where
  key : A → K
  newOwner : A → O
  signedBy : A → O → Bool

variable {S : Scheme K A O} {own own' : K → Option O} {ops : List A} {past : List (List A)}

/-- One round of authorizations takes effect. Things that are not named stay where they are; new ones
may appear. -/
structure Step (S : Scheme K A O) (own : K → Option O) (ops : List A) (own' : K → Option O) :
    Prop where
  authorized : ∀ op ∈ ops, ∃ o, own (S.key op) = some o ∧ S.signedBy op o = true
  given : ∀ op ∈ ops, own' (S.key op) = some (S.newOwner op)
  kept : ∀ k o, k ∉ ops.map S.key → own k = some o → own' k = some o

/-- Rounds one after another, the latest first. -/
inductive Run (S : Scheme K A O) : List (List A) → (K → Option O) → Prop
  | start (own : K → Option O) : Run S [] own
  | step {past : List (List A)} {own own' : K → Option O} {ops : List A} :
      Run S past own → Step S own ops own' → Run S (ops :: past) own'

/-- No authorization of the round hands a thing to an owner whose key verifies an authorization used
for it before, or in this round. -/
def NoReturn (S : Scheme K A O) (past : List (List A)) (ops : List A) : Prop :=
  ∀ op ∈ ops, ∀ used ∈ (ops :: past).flatten, S.key used = S.key op →
    S.signedBy used (S.newOwner op) = false

/-- No used authorization verifies under the key of the present owner of its thing. -/
def Spent (S : Scheme K A O) (past : List (List A)) (own : K → Option O) : Prop :=
  ∀ used ∈ past.flatten, ∃ o, own (S.key used) = some o ∧ S.signedBy used o = false

theorem Spent.step (h : Spent S past own) (hstep : Step S own ops own') (hno : NoReturn S past ops) :
    Spent S (ops :: past) own' := by
  intro used hused
  by_cases hmoved : S.key used ∈ ops.map S.key
  · obtain ⟨op, hop, hkey⟩ := List.mem_map.mp hmoved
    refine ⟨S.newOwner op, ?_, hno op hop used hused hkey.symm⟩
    rw [← hkey]
    exact hstep.given op hop
  · -- the thing has not moved in this round, so `used` is from an earlier one
    have hpast : used ∈ past.flatten := by
      rcases List.mem_append.mp hused with hused | hused
      · exact absurd (List.mem_map_of_mem hused) hmoved
      · exact hused
    obtain ⟨o, ho, hsig⟩ := h used hpast
    exact ⟨o, hstep.kept _ _ hmoved ho, hsig⟩

/-- What a step takes has not been used before. -/
theorem Spent.not_mem (h : Spent S past own) (hstep : Step S own ops own') {op : A} (hop : op ∈ ops) :
    op ∉ past.flatten := by
  intro hused
  obtain ⟨o, ho, hsig⟩ := hstep.authorized op hop
  obtain ⟨o', ho', hsig'⟩ := h op hused
  rw [ho] at ho'
  obtain rfl := Option.some.inj ho'
  rw [hsig] at hsig'
  cases hsig'

/-- Every round of the run keeps things from returning. -/
def NeverReturns (S : Scheme K A O) : List (List A) → Prop
  | [] => True
  | ops :: past => NoReturn S past ops ∧ NeverReturns S past

section Decidable

variable [DecidableEq K] (S : Scheme K A O)

instance (past : List (List A)) (ops : List A) : Decidable (NoReturn S past ops) :=
  inferInstanceAs (Decidable (∀ op ∈ ops, ∀ used ∈ (ops :: past).flatten, S.key used = S.key op →
    S.signedBy used (S.newOwner op) = false))

instance instDecidableNeverReturns : (past : List (List A)) → Decidable (NeverReturns S past)
  | [] => isTrue trivial
  | ops :: past =>
      have : Decidable (NeverReturns S past) := instDecidableNeverReturns past
      inferInstanceAs (Decidable (NoReturn S past ops ∧ NeverReturns S past))

end Decidable

theorem Run.spent (h : Run S past own) (hno : NeverReturns S past) : Spent S past own := by
  induction h with
  | start own =>
      intro used hused
      cases hused
  | step _ hstep ih => exact (ih hno.2).step hstep hno.1

/-- **An authorization takes effect in one round at most**, along every run in which nothing comes
back to an owner whose key verifies an authorization already used for it. -/
theorem single_use (h : Run S past own) (hno : NeverReturns S past) :
    past.Pairwise fun later earlier => ∀ op ∈ later, op ∉ earlier := by
  induction h with
  | start own => exact List.Pairwise.nil
  | step hrun hstep ih =>
      refine List.Pairwise.cons ?_ (ih hno.2)
      intro earlier hearlier op hop hmem
      exact (hrun.spent hno.2).not_mem hstep hop (List.mem_flatten.mpr ⟨earlier, hearlier, hmem⟩)

end Custody
