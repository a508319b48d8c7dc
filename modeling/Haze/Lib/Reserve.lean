import Mathlib.Data.List.Perm.Basic

/-!
# Holders of resources

Several holders each have a list of resources, and no resource has two holders. What keeps it so is a
mark on every resource that is held: who takes resources takes unmarked ones and marks them, and a mark
goes away only with the holder. `Held` is the invariant, with one rule for each thing that can happen.
-/

namespace Reserve

variable {R : Type}

/-- Everything held is marked, and no two holders share anything. -/
structure Held (marked : R → Prop) (holders : List (List R)) : Prop where
  marked : ∀ held ∈ holders, ∀ r ∈ held, marked r
  apart : holders.Pairwise List.Disjoint

variable {marked marked' : R → Prop} {holders holders' : List (List R)} {held : List R}

theorem Held.nil : Held marked [] :=
  ⟨fun _ h => absurd h List.not_mem_nil, List.Pairwise.nil⟩

theorem Held.perm (h : Held marked holders) (hperm : holders.Perm holders') :
    Held marked holders' := by
  refine ⟨fun l hl => h.marked l (hperm.mem_iff.mpr hl), ?_⟩
  exact (hperm.pairwise_iff fun h => List.disjoint_symm h).mp h.apart

/-- Holders may go, and leave their marks. -/
theorem Held.sublist (h : Held marked holders) (hsub : holders'.Sublist holders) :
    Held marked holders' :=
  ⟨fun l hl => h.marked l (hsub.subset hl), h.apart.sublist hsub⟩

/-- Marks may change where nothing is held. -/
theorem Held.mono (h : Held marked holders)
    (hkept : ∀ l ∈ holders, ∀ r ∈ l, marked r → marked' r) : Held marked' holders :=
  ⟨fun l hl r hr => hkept l hl r hr (h.marked l hl r hr), h.apart⟩

/-- A new holder takes what is not marked, and marks it. What is held already stays marked. -/
theorem Held.take (h : Held marked holders) (hfree : ∀ r ∈ held, ¬ marked r)
    (hmark : ∀ r ∈ held, marked' r) (hkept : ∀ l ∈ holders, ∀ r ∈ l, marked r → marked' r) :
    Held marked' (held :: holders) := by
  refine ⟨?_, List.pairwise_cons.mpr ⟨?_, h.apart⟩⟩
  · rw [List.forall_mem_cons]
    exact ⟨hmark, (h.mono hkept).marked⟩
  · intro l hl r hr hr'
    exact hfree r hr (h.marked l hl r hr')

/-- A holder goes and takes its marks with it. -/
theorem Held.release (h : Held marked (held :: holders))
    (hkept : ∀ r, r ∉ held → marked r → marked' r) : Held marked' holders := by
  obtain ⟨hdisjoint, hapart⟩ := List.pairwise_cons.mp h.apart
  refine ⟨?_, hapart⟩
  intro l hl r hr
  refine hkept r (fun hr' => hdisjoint l hl hr' hr) ?_
  exact h.marked l (List.mem_cons_of_mem _ hl) r hr

end Reserve
