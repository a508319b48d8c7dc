import Mathlib.Data.List.Basic
import Mathlib.Data.List.Infix

/-!
# Encodings that can be concatenated and hashed

A digest of many values is taken over their encodings, one after another. It determines the values if
the hash has no collision and if no encoding is the beginning of another, so that the concatenation can
be taken apart again.

A hash with digests of a fixed length has collisions, so both assumptions are made about the values at
hand and not about all there are.
-/

namespace Encoding

variable {α β D : Type}

/-- Of the listed messages no two have the same digest. -/
def CollisionFree (hash : List β → D) (messages : List (List β)) : Prop :=
  ∀ m ∈ messages, ∀ m' ∈ messages, hash m = hash m' → m = m'

theorem CollisionFree.mono {hash : List β → D} {messages messages' : List (List β)}
    (h : CollisionFree hash messages) (hsub : messages' ⊆ messages) :
    CollisionFree hash messages' :=
  fun m hm m' hm' => h m (hsub hm) m' (hsub hm')

/-- On the listed values the encoding is injective and self-delimiting. -/
structure SelfDelimiting (encode : α → List β) (values : List α) : Prop where
  ne_nil : ∀ a ∈ values, encode a ≠ []
  delimits : ∀ a ∈ values, ∀ a' ∈ values, encode a <+: encode a' → a = a'

instance [DecidableEq β] [DecidableEq D] (hash : List β → D) (messages : List (List β)) :
    Decidable (CollisionFree hash messages) :=
  inferInstanceAs (Decidable (∀ m ∈ messages, ∀ m' ∈ messages, hash m = hash m' → m = m'))

instance [DecidableEq α] [DecidableEq β] (encode : α → List β) (values : List α) :
    Decidable (SelfDelimiting encode values) :=
  decidable_of_iff ((∀ a ∈ values, encode a ≠ []) ∧
      ∀ a ∈ values, ∀ a' ∈ values, encode a <+: encode a' → a = a')
    ⟨fun h => ⟨h.1, h.2⟩, fun h => ⟨h.ne_nil, h.delimits⟩⟩

theorem SelfDelimiting.flatMap_inj {encode : α → List β} {values xs ys : List α}
    (h : SelfDelimiting encode values) (hxs : xs ⊆ values) (hys : ys ⊆ values)
    (heq : xs.flatMap encode = ys.flatMap encode) : xs = ys := by
  induction xs generalizing ys with
  | nil =>
      cases ys with
      | nil => rfl
      | cons y ys =>
          rw [List.flatMap_nil, List.flatMap_cons] at heq
          exact absurd (List.append_eq_nil_iff.mp heq.symm).1 (h.ne_nil y (hys List.mem_cons_self))
  | cons x xs ih =>
      cases ys with
      | nil =>
          rw [List.flatMap_nil, List.flatMap_cons] at heq
          exact absurd (List.append_eq_nil_iff.mp heq).1 (h.ne_nil x (hxs List.mem_cons_self))
      | cons y ys =>
          rw [List.flatMap_cons, List.flatMap_cons] at heq
          have hx := hxs List.mem_cons_self
          have hy := hys List.mem_cons_self
          -- of the two encodings in front one begins with the other
          obtain rfl : x = y := by
            rcases List.prefix_or_prefix_of_prefix (List.prefix_append (encode x) _)
                (heq ▸ List.prefix_append (encode y) _) with hpre | hpre
            · exact h.delimits x hx y hy hpre
            · exact (h.delimits y hy x hx hpre).symm
          have hrest := ih (fun a ha => hxs (List.mem_cons_of_mem _ ha))
            (fun a ha => hys (List.mem_cons_of_mem _ ha)) (List.append_cancel_left heq)
          rw [hrest]

/-- Two cuts of one string are at the same place, or a run of bytes lies between them. -/
theorem cut_cases {a b a' b' : List β} (h : a ++ b = a' ++ b') :
    (a = a' ∧ b = b') ∨ (∃ run ≠ [], a' = a ++ run ∧ b = run ++ b') ∨
      ∃ run ≠ [], a = a' ++ run ∧ b' = run ++ b := by
  rcases List.append_eq_append_iff.mp h with ⟨run, hcut, hrest⟩ | ⟨run, hcut, hrest⟩
  · by_cases hrun : run = []
    · subst hrun
      exact .inl ⟨by rw [hcut, List.append_nil], hrest⟩
    · exact .inr (.inl ⟨run, hrun, hcut, hrest⟩)
  · by_cases hrun : run = []
    · subst hrun
      exact .inl ⟨by rw [hcut, List.append_nil], hrest.symm⟩
    · exact .inr (.inr ⟨run, hrun, hcut, hrest⟩)

/-- Two cuts of one string at a separator are at the same one, or the field that ends later has the
separator of the other cut in it. -/
theorem separated_cases {x : β} {a b a' b' : List β} (h : a ++ x :: b = a' ++ x :: b') :
    (a = a' ∧ b = b') ∨ (∃ run, a' = a ++ x :: run ∧ b = run ++ x :: b') ∨
      ∃ run, a = a' ++ x :: run ∧ b' = run ++ x :: b := by
  rcases cut_cases h with ⟨rfl, hrest⟩ | ⟨run, hrun, rfl, hrest⟩ | ⟨run, hrun, rfl, hrest⟩
  · exact .inl ⟨rfl, (List.cons.inj hrest).2⟩
  · cases run with
    | nil => exact absurd rfl hrun
    | cons y run =>
        obtain ⟨rfl, htail⟩ := List.cons.inj hrest
        exact .inr (.inl ⟨run, rfl, htail⟩)
  · cases run with
    | nil => exact absurd rfl hrun
    | cons y run =>
        obtain ⟨rfl, htail⟩ := List.cons.inj hrest
        exact .inr (.inr ⟨run, rfl, htail⟩)

/-! ## Parts without separators

Many parts one after another, none with its length or an end mark: what the concatenation leaves open is
where one part ends. -/

/-- The first part that ends at different places ends later in the second list, by a run that the first
list has directly behind it. -/
inductive Moved : List (List β) → List (List β) → Prop where
  | here {part run : List β} {rest rest' : List (List β)} (hrun : run ≠ [])
      (hrest : rest.flatten = run ++ rest'.flatten) : Moved (part :: rest) ((part ++ run) :: rest')
  | there {part : List β} {rest rest' : List (List β)} (h : Moved rest rest') :
      Moved (part :: rest) (part :: rest')

variable {parts parts' : List (List β)}

theorem Moved.flatten_eq (h : Moved parts parts') : parts.flatten = parts'.flatten := by
  induction h with
  | here hrun hrest => rw [List.flatten_cons, List.flatten_cons, hrest, List.append_assoc]
  | there h ih => rw [List.flatten_cons, List.flatten_cons, ih]

/-- Some part has another length. -/
theorem Moved.lengths_ne (h : Moved parts parts') :
    parts.map List.length ≠ parts'.map List.length := by
  induction h with
  | @here part run _ _ hrun hrest =>
      intro heq
      have hlength := (List.cons.inj heq).1
      rw [List.length_append, Nat.left_eq_add, List.length_eq_zero_iff] at hlength
      exact hrun hlength
  | there h ih => exact fun heq => ih (List.cons.inj heq).2

theorem Moved.ne (h : Moved parts parts') : parts ≠ parts' :=
  fun heq => h.lengths_ne (congrArg (List.map List.length) heq)

/-- A concatenation tells its parts, unless the end of one is moved. -/
theorem flatten_eq_cases (hlength : parts.length = parts'.length)
    (h : parts.flatten = parts'.flatten) : parts = parts' ∨ Moved parts parts' ∨ Moved parts' parts := by
  induction parts generalizing parts' with
  | nil =>
      obtain rfl := List.length_eq_zero_iff.mp hlength.symm
      exact .inl rfl
  | cons part rest ih =>
      cases parts' with
      | nil => cases hlength
      | cons part' rest' =>
          rw [List.flatten_cons, List.flatten_cons] at h
          -- the first parts end at one place or at different ones; then the longer one reaches into what
          -- is behind the other
          rcases cut_cases h with ⟨rfl, hrest⟩ | ⟨run, hrun, rfl, hrest⟩ | ⟨run, hrun, rfl, hrest⟩
          · rcases ih (Nat.succ.inj hlength) hrest with rfl | hmoved | hmoved
            · exact .inl rfl
            · exact .inr (.inl hmoved.there)
            · exact .inr (.inr hmoved.there)
          · exact .inr (.inl (.here hrun hrest))
          · exact .inr (.inr (.here hrun hrest))

/-- When it is known which terms share a message, it binds its terms exactly when none of them do. -/
theorem binds_iff {T : Type} {message : T → List β} {Shares : T → T → Prop} {t t' : T}
    (hshares : ∀ t t', Shares t t' → message t = message t' ∧ t ≠ t')
    (hcases : message t = message t' → t = t' ∨ Shares t t' ∨ Shares t' t) :
    (message t = message t' → t = t') ↔ ¬ Shares t t' ∧ ¬ Shares t' t := by
  constructor
  · intro hbind
    refine ⟨fun h => ?_, fun h => ?_⟩
    · obtain ⟨hsame, hne⟩ := hshares t t' h
      exact hne (hbind hsame)
    · obtain ⟨hsame, hne⟩ := hshares t' t h
      exact hne (hbind hsame.symm).symm
  · rintro ⟨hfwd, hback⟩ hsame
    rcases hcases hsame with heq | hshares | hshares
    · exact heq
    · exact absurd hshares hfwd
    · exact absurd hshares hback

end Encoding
