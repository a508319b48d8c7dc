import Mathlib.Data.List.Induction
import Haze.Lib.KeyedMap

/-!
# Programs that edit a state in place

A program runs statement by statement on a mutable state and may leave early, by refusing its input or
by a panic; the state stays as the statements so far have left it. This is `EStateM`. The lemmas here
run a program on a state: a sequence of reads is one read (`reads_bind`, `foldlM_reads`), and a loop is
run by guessing what its first `n` rounds leave (`foldlM_eq`).
-/

/-- How a program leaves early. -/
inductive Exit where
  | rejected
  | panicked
  deriving DecidableEq

/-- A program on states `σ` with result `α`. -/
abbrev Prog (σ α : Type) := EStateM Exit σ α

namespace Prog

variable {σ α β K V : Type}

/-- A statement that only looks at the state, and refuses when there is no answer. -/
def reads (f : σ → Option α) : Prog σ α := fun s =>
  match f s with
  | some a => .ok a s
  | none => .error .rejected s

/-- A statement that copies something out of the state. -/
def asks (f : σ → α) : Prog σ α := reads fun s => some (f s)

/-- `map[key]`, which panics on a missing key. -/
def index [DecidableEq K] (m : KeyedMap K V) (k : K) : Prog σ V :=
  match m.lookup k with
  | some v => pure v
  | none => throw .panicked

/-- A call whose refusal the caller looks at. What the callee has changed stays. -/
def attempt (p : Prog σ α) : Prog σ (Option α) := fun s =>
  match p.run s with
  | .ok a s' => .ok (some a) s'
  | .error .rejected s' => .ok none s'
  | .error .panicked s' => .error .panicked s'

/-- A call on a copy of the state, which replaces the state only when the call succeeds. -/
def sandboxed (p : Prog σ α) : Prog σ (Option α) := fun s =>
  match p.run s with
  | .ok a s' => .ok (some a) s'
  | .error .rejected _ => .ok none s
  | .error .panicked _ => .error .panicked s

/-! ## Running

A program goes on with the result and the state of what came before, and an error leaves the state where it
was met. -/

theorem bind_ok {p : Prog σ α} {k : α → Prog σ β} {s s' : σ} {a : α} (h : p.run s = .ok a s') :
    (p >>= k).run s = (k a).run s' := by
  unfold EStateM.run at h ⊢
  show EStateM.bind p k s = _
  simp only [EStateM.bind, h]

theorem bind_error {p : Prog σ α} {k : α → Prog σ β} {s s' : σ} {e : Exit}
    (h : p.run s = .error e s') : (p >>= k).run s = .error e s' := by
  unfold EStateM.run at h ⊢
  show EStateM.bind p k s = _
  simp only [EStateM.bind, h]

theorem modify_run (f : σ → σ) (s : σ) : (modify f : Prog σ PUnit).run s = .ok () (f s) := rfl

theorem index_run [DecidableEq K] {m : KeyedMap K V} {k : K} {v : V} (h : m.lookup k = some v)
    (s : σ) : (index m k : Prog σ V).run s = .ok v s := by
  simp only [index, h]
  rfl

/-! ## Reading

What a program only reads does not move the state, so a sequence of readings is one function of it. -/

theorem bind_reads (f : σ → Option α) (k : α → Prog σ β) (s : σ) :
    (reads f >>= k).run s =
      match f s with
      | some a => (k a).run s
      | none => .error .rejected s := by
  show EStateM.bind (reads f) k s = _
  cases h : f s with
  | none => simp only [EStateM.bind, reads, h]
  | some a => simp only [EStateM.bind, reads, h, EStateM.run]

theorem asks_run (f : σ → α) (s : σ) : (asks f).run s = .ok (f s) s := rfl

theorem pure_eq_reads (a : α) : (pure a : Prog σ α) = reads fun _ => some a := rfl

/-- Two reads are one. -/
theorem reads_bind (f : σ → Option α) (g : α → σ → Option β) :
    (reads f >>= fun a => reads (g a)) = reads fun s => f s >>= fun a => g a s := by
  funext s
  show (reads f >>= fun a => reads (g a)).run s = (reads _).run s
  rw [bind_reads]
  cases h : f s with
  | none => simp [EStateM.run, reads, h]
  | some a => simp [EStateM.run, reads, h]

/-- A loop of reads is one read. -/
theorem foldlM_reads (f : β → α → σ → Option β) (xs : List α) (init : β) :
    xs.foldlM (fun acc x => reads (f acc x)) init =
      reads fun s => xs.foldlM (fun acc x => f acc x s) init := by
  induction xs generalizing init with
  | nil => rfl
  | cons x xs ih =>
      simp only [List.foldlM_cons, ih]
      exact reads_bind _ _

/-! ## Loops

A loop over a list, as a fold of what one element does. -/

/-- **The loop rule.** The rounds over `ys` leave the accumulator `B ys` and the state `S ys`, if one
more round goes from there to `B (ys ++ [x])` and `S (ys ++ [x])`. -/
theorem foldlM_eq {f : β → α → Prog σ β} (xs : List α) (B : List α → β) (S : List α → σ)
    (h : ∀ ys, ∀ x ∈ xs, (f (B ys) x).run (S ys) = .ok (B (ys ++ [x])) (S (ys ++ [x]))) :
    (xs.foldlM f (B [])).run (S []) = .ok (B xs) (S xs) := by
  suffices hfrom : ∀ ys zs : List α, (∀ x ∈ zs, x ∈ xs) →
      (zs.foldlM f (B ys)).run (S ys) = .ok (B (ys ++ zs)) (S (ys ++ zs)) by
    exact hfrom [] xs fun _ hx => hx
  intro ys zs hzs
  induction zs generalizing ys with
  | nil =>
      rw [List.append_nil]
      rfl
  | cons x zs ih =>
      obtain ⟨hx, hzs⟩ := List.forall_mem_cons.mp hzs
      rw [List.foldlM_cons, bind_ok (h ys x hx), ih _ hzs, List.append_assoc, List.singleton_append]

/-- A loop of assignments. -/
theorem forM_modify (f : α → σ → σ) (xs : List α) (s : σ) :
    (xs.forM fun x => modify (f x) : Prog σ PUnit).run s = .ok () (xs.foldl (fun s x => f x s) s) := by
  induction xs generalizing s with
  | nil => rfl
  | cons x xs ih =>
      rw [List.forM_eq_forM, List.forM_cons, bind_ok (modify_run (f x) s)]
      exact ih (f x s)

/-! ## Calls

`Computes` says of a program what it computes and how it changes the state, in terms of the state it starts
in. The rules compose such statements, so that no program has to be unfolded twice. -/

/-- The program computes the function: when there is no result, it has refused and written nothing. -/
def Computes (p : Prog σ α) (f : σ → Option (σ × α)) : Prop :=
  ∀ s, p.run s =
    match f s with
    | some (s', a) => .ok a s'
    | none => .error .rejected s

/-- What a program is worth on a copy of the state: the state it leaves counts only if it succeeds. -/
def Yields (p : Prog σ α) (s : σ) : Option (σ × α) → Prop
  | some (s', a) => p.run s = .ok a s'
  | none => ∃ s', p.run s = .error .rejected s'

theorem Computes.yields {p : Prog σ α} {f : σ → Option (σ × α)} (h : Computes p f) (s : σ) :
    Yields p s (f s) := by
  have hrun := h s
  cases hf : f s with
  | none =>
      rw [hf] at hrun
      exact ⟨s, hrun⟩
  | some r =>
      rw [hf] at hrun
      exact hrun

theorem Yields.pure (a : α) (s : σ) : Yields (Pure.pure a : Prog σ α) s (some (s, a)) := rfl

theorem Yields.bind {p : Prog σ α} {k : α → Prog σ β} {s : σ} {r : Option (σ × α)}
    {q : α → σ → Option (σ × β)} (hp : Yields p s r) (hk : ∀ a s', Yields (k a) s' (q a s')) :
    Yields (p >>= k) s (r.bind fun x => q x.2 x.1) := by
  cases r with
  | none =>
      obtain ⟨s', h⟩ := hp
      exact ⟨s', bind_error h⟩
  | some x =>
      have hrun := hk x.2 x.1
      rw [Option.bind_some]
      unfold Yields at hrun ⊢
      rw [bind_ok hp]
      exact hrun

theorem attempt_run {p : Prog σ α} {f : σ → Option (σ × α)} (h : Computes p f) (s : σ) :
    (attempt p).run s = .ok ((f s).map Prod.snd) (((f s).map Prod.fst).getD s) := by
  show (match p.run s with
    | .ok a s' => EStateM.Result.ok (some a) s'
    | .error .rejected s' => .ok none s'
    | .error .panicked s' => .error Exit.panicked s') = _
  rw [h s]
  cases f s with
  | none => rfl
  | some r => rfl

theorem sandboxed_run {p : Prog σ α} {s : σ} {r : Option (σ × α)} (h : Yields p s r) :
    (sandboxed p).run s = .ok (r.map Prod.snd) ((r.map Prod.fst).getD s) := by
  show (match p.run s with
    | .ok a s' => EStateM.Result.ok (some a) s'
    | .error .rejected _ => .ok none s
    | .error .panicked _ => .error Exit.panicked s) = _
  cases r with
  | none =>
      obtain ⟨s', h⟩ := h
      rw [h]
      rfl
  | some x =>
      have hrun : p.run s = .ok x.2 x.1 := h
      rw [hrun]
      rfl

end Prog
