import Mathlib.Data.Option.Basic
import Mathlib.Data.List.Induction

/-!
# Checked computations

A validator runs a sequence of checks, any of which rejects the whole input. In the `Option` monad a
check is `ensure`, and a loop of checks that threads an accumulator is `List.foldlM`. Nothing here
mentions what is being validated.

A producer that wants to be accepted runs a loop of its own, which skips what would be refused and
collects the rest (`Selects`). `foldlM_kept` is the rule that relates the two loops.
-/

namespace Checked

/-- Go on when `c` holds, reject otherwise. -/
def ensure (c : Bool) : Option Unit :=
  if c then some () else none

@[simp] theorem ensure_eq_some {c : Bool} {u : Unit} : ensure c = some u ↔ c = true := by
  cases c <;> simp [ensure]

variable {α σ : Type}

/-- **The loop rule.** What holds before a checked loop and is carried over one accepted element
holds of the elements processed and the accumulator reached. -/
theorem foldlM_induct {f : σ → α → Option σ} {motive : List α → σ → Prop} {init : σ}
    (start : motive [] init)
    (step : ∀ xs x t t', motive xs t → f t x = some t' → motive (xs ++ [x]) t') :
    ∀ {xs : List α} {t : σ}, xs.foldlM f init = some t → motive xs t := by
  intro xs
  induction xs using List.reverseRecOn with
  | nil =>
      intro t h
      cases h
      exact start
  | append_singleton xs x ih =>
      intro t h
      rw [List.foldlM_append] at h
      obtain ⟨t₀, h₀, h₁⟩ := Option.bind_eq_some_iff.mp h
      refine step xs x t₀ t (ih h₀) ?_
      simpa using h₁

/-- What holds before a loop and is carried over one element holds after it. -/
theorem foldl_induct {f : σ → α → σ} {motive : σ → Prop} {init : σ} (start : motive init)
    (step : ∀ t x, motive t → motive (f t x)) (xs : List α) : motive (xs.foldl f init) := by
  induction xs generalizing init with
  | nil => exact start
  | cons x xs ih => exact ih (step init x start)

/-- A loop that fails on its elements alone: it goes through if no element fails, and is then the loop of
what it does to the others. -/
theorem foldlM_ok_iff {ε : Type} {f : σ → α → Except ε σ} {next : σ → α → σ} {passes : α → Prop}
    (step : ∀ t x t', f t x = .ok t' ↔ passes x ∧ t' = next t x) {xs : List α} {t t' : σ} :
    xs.foldlM f t = .ok t' ↔ (∀ x ∈ xs, passes x) ∧ t' = xs.foldl next t := by
  induction xs generalizing t with
  | nil =>
      constructor
      · rintro ⟨⟩
        exact ⟨List.forall_mem_nil _, rfl⟩
      · rintro ⟨-, rfl⟩
        rfl
  | cons x xs ih =>
      rw [List.foldlM_cons, List.forall_mem_cons]
      -- the first element decides whether the loop gets anywhere
      cases hx : f t x with
      | error e =>
          have hfails : ¬ passes x := by
            intro hpass
            cases hx.symm.trans ((step t x _).mpr ⟨hpass, rfl⟩)
          constructor
          · intro h
            cases h
          · rintro ⟨⟨hpass, -⟩, -⟩
            exact absurd hpass hfails
      | ok t₁ =>
          obtain ⟨hpass, rfl⟩ := (step t x t₁).mp hx
          show xs.foldlM f (next t x) = .ok t' ↔ _
          rw [ih, and_iff_right hpass]
          rfl

/-- A run that passes is matched by a run on other elements, when each of its steps is. -/
theorem foldlM_simulates {β τ : Type} {f : σ → α → Option σ} {g : τ → β → Option τ} {R : σ → τ → Prop}
    (tr : α → β)
    (step : ∀ s t x s', R s t → f s x = some s' → ∃ t', g t (tr x) = some t' ∧ R s' t')
    {s s' : σ} {t : τ} {xs : List α} (hR : R s t) (h : xs.foldlM f s = some s') :
    ∃ t', (xs.map tr).foldlM g t = some t' ∧ R s' t' := by
  induction xs generalizing s t with
  | nil =>
      obtain rfl := Option.some.inj h
      exact ⟨t, rfl, hR⟩
  | cons x xs ih =>
      rw [List.foldlM_cons, Option.bind_eq_bind, Option.bind_eq_some_iff] at h
      obtain ⟨s₁, hs₁, hrest⟩ := h
      obtain ⟨t₁, ht₁, hR₁⟩ := step s t x s₁ hR hs₁
      obtain ⟨t', ht', hR'⟩ := ih hR₁ hrest
      refine ⟨t', ?_, hR'⟩
      rw [List.map_cons, List.foldlM_cons, ht₁]
      exact ht'

/-- Every step of the run `xs` from `s` meets the condition, in the state it is taken in. -/
def Guarded (step : σ → α → σ) (cond : σ → α → Prop) : σ → List α → Prop
  | _, [] => True
  | s, x :: xs => cond s x ∧ Guarded step cond (step s x) xs

instance Guarded.decidable {step : σ → α → σ} {cond : σ → α → Prop} [∀ s x, Decidable (cond s x)] :
    ∀ s xs, Decidable (Guarded step cond s xs)
  | _, [] => isTrue trivial
  | s, x :: xs =>
      have : Decidable (Guarded step cond (step s x) xs) := Guarded.decidable (step s x) xs
      inferInstanceAs (Decidable (cond s x ∧ Guarded step cond (step s x) xs))

theorem guarded_append {step : σ → α → σ} {cond : σ → α → Prop} {s : σ} {xs ys : List α} :
    Guarded step cond s (xs ++ ys) ↔ Guarded step cond s xs ∧ Guarded step cond (xs.foldl step s) ys := by
  induction xs generalizing s with
  | nil => simp [Guarded]
  | cons x xs ih => simp [Guarded, ih, and_assoc]

/-- **The rule for guarded runs.** What one step keeps under the condition, the run keeps. -/
theorem Guarded.invariant {step : σ → α → σ} {cond : σ → α → Prop} {I : σ → Prop}
    (hstep : ∀ s x, I s → cond s x → I (step s x)) {s : σ} {xs : List α}
    (h : Guarded step cond s xs) (hs : I s) : I (xs.foldl step s) := by
  induction xs generalizing s with
  | nil => exact hs
  | cons x xs ih => exact ih h.2 (hstep s x hs h.1)

/-- Two conditions that agree under an invariant guard the same runs, when either keeps the invariant. -/
theorem guarded_congr {step : σ → α → σ} {cond cond' : σ → α → Prop} {I : σ → Prop}
    (hiff : ∀ s x, I s → (cond s x ↔ cond' s x)) (hstep : ∀ s x, I s → cond s x → I (step s x)) {s : σ}
    (hs : I s) (xs : List α) : Guarded step cond s xs ↔ Guarded step cond' s xs := by
  induction xs generalizing s with
  | nil => rfl
  | cons x xs ih =>
      show cond s x ∧ _ ↔ cond' s x ∧ _
      rw [← hiff s x hs]
      refine and_congr_right ?_
      intro hcond
      exact ih (hstep s x hs hcond)

/-! ## Selecting loops -/

/-- A loop that collects the elements it keeps and is left unchanged by the others. -/
structure Selects (sel : σ → α → σ) (keeps : σ → α → Bool) (kept : σ → List α) : Prop where
  keep : ∀ t x, keeps t x = true → kept (sel t x) = kept t ++ [x]
  skip : ∀ t x, keeps t x = false → sel t x = t

section Selecting

variable {sel : σ → α → σ} {keeps : σ → α → Bool} {kept : σ → List α} {i : σ}

/-- A loop that keeps what a partial check accepts. -/
theorem Selects.ofOption {β : Type} {ask : σ → α → Option β}
    (keep : ∀ t x v, ask t x = some v → kept (sel t x) = kept t ++ [x])
    (skip : ∀ t x, ask t x = none → sel t x = t) :
    Selects sel (fun t x => (ask t x).isSome) kept where
  keep t x h := by
    obtain ⟨v, hv⟩ := Option.isSome_iff_exists.mp h
    exact keep t x v hv
  skip t x h := skip t x (by simpa using h)

/-- An element is collected exactly when the loop keeps it where it meets it. -/
theorem Selects.mem_kept_iff (h : Selects sel keeps kept) (hinit : kept i = []) {xs : List α}
    {x : α} :
    x ∈ kept (xs.foldl sel i) ↔
      ∃ done rest, xs = done ++ x :: rest ∧ keeps (done.foldl sel i) x = true := by
  induction xs using List.reverseRecOn with
  | nil => simp [hinit]
  | append_singleton xs y ih =>
      rw [List.foldl_append, List.foldl_cons, List.foldl_nil]
      constructor
      · intro hx
        cases hy : keeps (xs.foldl sel i) y with
        | false =>
            rw [h.skip _ _ hy] at hx
            obtain ⟨done, rest, rfl, hkeep⟩ := ih.mp hx
            exact ⟨done, rest ++ [y], by simp, hkeep⟩
        | true =>
            rw [h.keep _ _ hy] at hx
            rcases List.mem_append.mp hx with hx | hx
            · obtain ⟨done, rest, rfl, hkeep⟩ := ih.mp hx
              exact ⟨done, rest ++ [y], by simp, hkeep⟩
            · obtain rfl := List.mem_singleton.mp hx
              exact ⟨xs, [], rfl, hy⟩
      · rintro ⟨done, rest, heq, hkeep⟩
        -- `x` is the last element, or it was met before
        rcases List.eq_nil_or_concat rest with rfl | ⟨rest, z, rfl⟩
        · obtain ⟨rfl, hlast⟩ := List.append_inj' heq rfl
          obtain rfl := List.singleton_inj.mp hlast
          rw [h.keep _ _ hkeep]
          exact List.mem_append_right _ (List.mem_singleton_self _)
        · have hsplit : xs = done ++ x :: rest := by
            rw [List.concat_eq_append, ← List.cons_append, ← List.append_assoc] at heq
            exact (List.append_inj' heq rfl).1
          have hx := ih.mpr ⟨done, rest, hsplit, hkeep⟩
          cases hy : keeps (xs.foldl sel i) y with
          | false => rwa [h.skip _ _ hy]
          | true =>
              rw [h.keep _ _ hy]
              exact List.mem_append_left _ hx

/-- The candidates are split into those collected and those skipped, each where it was met. -/
theorem Selects.perm_kept (h : Selects sel keeps kept) (hinit : kept i = []) (xs : List α) :
    ∃ skipped, xs.Perm (kept (xs.foldl sel i) ++ skipped) ∧ ∀ x ∈ skipped,
      ∃ done rest, xs = done ++ x :: rest ∧ keeps (done.foldl sel i) x = false := by
  induction xs using List.reverseRecOn with
  | nil => exact ⟨[], by simp [hinit], by simp⟩
  | append_singleton xs y ih =>
      obtain ⟨skipped, hperm, hskipped⟩ := ih
      have hskipped' : ∀ x ∈ skipped, ∃ done rest, xs ++ [y] = done ++ x :: rest ∧
          keeps (done.foldl sel i) x = false := by
        intro x hx
        obtain ⟨done, rest, rfl, hnot⟩ := hskipped x hx
        exact ⟨done, rest ++ [y], by simp, hnot⟩
      rw [List.foldl_append, List.foldl_cons, List.foldl_nil]
      -- whether the last element is collected says where it goes; the others are where they were
      cases hy : keeps (xs.foldl sel i) y with
      | false =>
          refine ⟨skipped ++ [y], ?_, ?_⟩
          · rw [h.skip _ _ hy, ← List.append_assoc]
            exact hperm.append_right [y]
          · rw [List.forall_mem_append]
            refine ⟨hskipped', ?_⟩
            rw [List.forall_mem_singleton]
            exact ⟨xs, [], rfl, hy⟩
      | true =>
          refine ⟨skipped, ?_, hskipped'⟩
          rw [h.keep _ _ hy, List.append_assoc]
          refine (hperm.append_right [y]).trans ?_
          rw [List.append_assoc]
          exact List.perm_append_comm.append_left _

/-- **The rule for a producer and its checker.** If the checker accepts what the producer keeps,
element by element, in related states, then it accepts all that was collected. -/
theorem Selects.foldlM_kept {τ : Type} {check : τ → α → Option τ} {R : σ → τ → Prop}
    {G : α → Prop} {u₀ : τ} (h : Selects sel keeps kept) (hinit : kept i = [])
    (start : R i u₀)
    (step : ∀ t u x, R t u → keeps t x = true → G x → ∃ u', check u x = some u' ∧ R (sel t x) u')
    (xs : List α) (hgood : ∀ x ∈ kept (xs.foldl sel i), G x) :
    ∃ u, (kept (xs.foldl sel i)).foldlM check u₀ = some u ∧ R (xs.foldl sel i) u := by
  induction xs using List.reverseRecOn with
  | nil => exact ⟨u₀, by simp [hinit], start⟩
  | append_singleton xs y ih =>
      rw [List.foldl_append, List.foldl_cons, List.foldl_nil] at hgood ⊢
      -- the check only meets what is collected, in the state that the collected ones before it led to
      cases hy : keeps (xs.foldl sel i) y with
      | false =>
          rw [h.skip _ _ hy] at hgood ⊢
          exact ih hgood
      | true =>
          rw [h.keep _ _ hy] at hgood ⊢
          obtain ⟨hrest, hlast⟩ := List.forall_mem_append.mp hgood
          obtain ⟨u, hu, hR⟩ := ih hrest
          obtain ⟨u', hu', hR'⟩ := step _ u y hR hy (hlast y (List.mem_singleton_self y))
          refine ⟨u', ?_, hR'⟩
          rw [List.foldlM_append, hu]
          simpa using hu'

end Selecting

end Checked
