import Mathlib.Logic.Relation

/-!
# What every run ends with

`Inevitable step Q s` says that every run of `step` from `s` ends, whatever choices it makes, and that
`Q` holds where it ends. It is inductive, so a run that goes on forever refutes it: unlike "`Q` holds
wherever a run ends" it cannot hold because no run ends (`exists_stop`).
-/

/-- Every run from `s` ends, and where it ends `Q` holds. -/
inductive Inevitable {S : Type} (step : S → S → Prop) (Q : S → Prop) : S → Prop
  | intro {s : S} (stop : (∀ s', ¬ step s s') → Q s)
      (next : ∀ s', step s s' → Inevitable step Q s') : Inevitable step Q s

namespace Inevitable

variable {S : Type} {step : S → S → Prop} {Q : S → Prop} {s s' : S}

/-- A state without steps. -/
theorem of_stop (h : ∀ s', ¬ step s s') (hQ : Q s) : Inevitable step Q s :=
  .intro (fun _ => hQ) fun s' hstep => absurd hstep (h s')

/-- A state with exactly one step. -/
theorem of_unique_step (hstep : step s s') (h : ∀ t, step s t → t = s')
    (hnext : Inevitable step Q s') : Inevitable step Q s := by
  apply Inevitable.intro (fun hstop => absurd hstep (hstop s'))
  intro t ht
  rw [h t ht]
  exact hnext

theorem of_reaches (h : Inevitable step Q s) (hrun : Relation.ReflTransGen step s s') :
    Inevitable step Q s' := by
  induction hrun with
  | refl => exact h
  | tail _ hstep ih =>
      obtain ⟨-, hnext⟩ := ih
      exact hnext _ hstep

/-- What holds where a run ends. -/
theorem at_stop (h : Inevitable step Q s) (hrun : Relation.ReflTransGen step s s')
    (hstop : ∀ t, ¬ step s' t) : Q s' := by
  obtain ⟨hQ, -⟩ := h.of_reaches hrun
  exact hQ hstop

/-- Some run ends. -/
theorem exists_stop (h : Inevitable step Q s) :
    ∃ s', Relation.ReflTransGen step s s' ∧ (∀ t, ¬ step s' t) ∧ Q s' := by
  induction h with
  | @intro s hQ _ ih =>
      by_cases hstep : ∃ t, step s t
      · obtain ⟨t, ht⟩ := hstep
        obtain ⟨s', hrun, hs', hQ'⟩ := ih t ht
        exact ⟨s', .head ht hrun, hs', hQ'⟩
      · have hstop : ∀ t, ¬ step s t := not_exists.mp hstep
        exact ⟨s, .refl, hstop, hQ hstop⟩

/-- Two contradictory outcomes are not both inevitable. -/
theorem absurd_of_not (h : Inevitable step Q s) (h' : Inevitable step (fun s => ¬ Q s) s) : False := by
  obtain ⟨s', hrun, hstop, hQ⟩ := h.exists_stop
  exact h'.at_stop hrun hstop hQ

end Inevitable
