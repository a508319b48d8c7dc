import Mathlib.Data.List.Basic
import Mathlib.Data.List.Flatten
import Mathlib.Data.List.Perm.Basic

/-!
# Interleaved tasks

A server handles each request in a task of its own, and the tasks share a state. Between two accesses
to the state a task only has itself to look at, so a task is what it does from its next access on. A
step takes any task that waits, lets it make one access and puts back what is left of it; it may also
have started others.

Two rules are given for what a step keeps: an invariant that says the same thing of every task
(`All.resume`), and an account of what the tasks hold among them (`flatMap_eraseIdx`).
-/

namespace Tasks

variable {σ τ : Type}

/-- The shared state, and the tasks that wait for it. -/
structure System (σ τ : Type) where
  shared : σ
  waiting : List τ

namespace System

/-- A new task. -/
def spawn (s : System σ τ) (t : τ) : System σ τ :=
  { s with waiting := s.waiting ++ [t] }

/-- The task at a place makes its access. -/
def resume (f : σ → τ → σ × List τ) (s : System σ τ) (i : ℕ) : System σ τ :=
  match s.waiting[i]? with
  | none => s
  | some t => ⟨(f s.shared t).1, s.waiting.eraseIdx i ++ (f s.shared t).2⟩

variable {f : σ → τ → σ × List τ} {s : System σ τ} {i : ℕ}

theorem resume_cases (f : σ → τ → σ × List τ) (s : System σ τ) (i : ℕ) :
    s.resume f i = s ∨ ∃ t, s.waiting[i]? = some t ∧
      s.resume f i = ⟨(f s.shared t).1, s.waiting.eraseIdx i ++ (f s.shared t).2⟩ := by
  unfold resume
  split
  · exact .inl rfl
  next t ht => exact .inr ⟨t, ht, rfl⟩

/-- An invariant of the state, and one of every task in that state. -/
structure All (I : σ → Prop) (T : σ → τ → Prop) (s : System σ τ) : Prop where
  shared : I s.shared
  waiting : ∀ t ∈ s.waiting, T s.shared t

variable {I : σ → Prop} {T : σ → τ → Prop}

theorem All.spawn (h : s.All I T) {t : τ} (ht : T s.shared t) : (s.spawn t).All I T := by
  refine ⟨h.shared, ?_⟩
  intro t' ht'
  rcases List.mem_append.mp ht' with ht' | ht'
  · exact h.waiting t' ht'
  · rw [List.mem_singleton.mp ht']
    exact ht

/-- The state may change under the tasks as long as they keep their invariant. -/
theorem All.update (h : s.All I T) {x : σ} (hx : I x) (hmono : ∀ t, T s.shared t → T x t) :
    (System.mk x s.waiting).All I T :=
  ⟨hx, fun t ht => hmono t (h.waiting t ht)⟩

/-- **The rule for one access.** The access keeps the invariant, leaves tasks that have theirs, and
takes it from none of the others. -/
theorem All.resume (h : s.All I T)
    (hown : ∀ t, T s.shared t → I (f s.shared t).1 ∧ ∀ t' ∈ (f s.shared t).2, T (f s.shared t).1 t')
    (hother : ∀ t t', T s.shared t → T s.shared t' → T (f s.shared t).1 t') (i : ℕ) :
    (s.resume f i).All I T := by
  rcases resume_cases f s i with heq | ⟨t, ht, heq⟩
  · rw [heq]
    exact h
  · rw [heq]
    have htask := h.waiting t (List.mem_of_getElem? ht)
    refine ⟨(hown t htask).1, ?_⟩
    intro t' ht'
    rcases List.mem_append.mp ht' with ht' | ht'
    · exact hother t t' htask (h.waiting t' (List.mem_of_mem_eraseIdx ht'))
    · exact (hown t htask).2 t' ht'

/-- **The account of one access.** Of what the tasks hold among them, only the share of the task that
is taken changes. -/
theorem flatMap_eraseIdx {κ : Type} (g : τ → List κ) {ts : List τ} {t : τ} (ht : ts[i]? = some t) :
    (ts.flatMap g).Perm (g t ++ (ts.eraseIdx i).flatMap g) := by
  obtain ⟨hlt, rfl⟩ := List.getElem?_eq_some_iff.mp ht
  exact ((List.getElem_cons_eraseIdx_perm hlt).flatMap_right g).symm

end System

end Tasks
