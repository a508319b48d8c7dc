import Haze.Lib.KeyedMap

/-!
# Mailboxes with several addresses

Messages are posted to an address and wait there until the address is polled. Who owns an address is told
by a function, and one owner may have many. The owner is served right when a poll returns all that waits for
them, in order, whatever address was used: which is so exactly if nothing waits at another of their
addresses.
-/

namespace Mailbox

variable {A K M : Type} [DecidableEq K]

/-- A post that was accepted, or a poll that was answered. -/
inductive Event (A M : Type) where
  | posted (a : A) (m : M)
  | polled (a : A)

variable (owner : A → Option K)

/-- What has been posted to an owner since the last poll of theirs, with the addresses used. -/
def waiting (k : K) (history : List (Event A M)) : List (A × M) :=
  history.foldl (fun acc event =>
    match event with
    | .posted a m => if owner a = some k then acc ++ [(a, m)] else acc
    | .polled a => if owner a = some k then [] else acc) []

variable {owner} {history : List (Event A M)} {k : K} {a : A}

theorem waiting_posted (m : M) : waiting owner k (history ++ [.posted a m]) =
    if owner a = some k then waiting owner k history ++ [(a, m)] else waiting owner k history := by
  simp [waiting, List.foldl_append]

theorem waiting_polled : waiting owner k (history ++ [.polled a]) =
    if owner a = some k then [] else waiting owner k history := by
  simp [waiting, List.foldl_append]

theorem owner_of_mem_waiting {p : A × M} (h : p ∈ waiting owner k history) : owner p.1 = some k := by
  induction history using List.reverseRecOn with
  | nil => cases h
  | append_singleton history event ih =>
      cases event with
      | posted a m =>
          rw [waiting_posted] at h
          split at h
          next howner =>
            rcases List.mem_append.mp h with h | h
            · exact ih h
            · rw [List.mem_singleton.mp h]
              exact howner
          next => exact ih h
      | polled a =>
          rw [waiting_polled] at h
          split at h
          next => cases h
          next => exact ih h

/-! ## The queues

The mailbox against one queue for each key: posting appends to one queue, and polling empties one. -/

variable [DecidableEq A]

/-- The messages at an address. -/
def queue (queues : KeyedMap A (List M)) (a : A) : List M :=
  (queues.lookup a).getD []

def step (queues : KeyedMap A (List M)) : Event A M → KeyedMap A (List M)
  | .posted a m => queues.insert a (queue queues a ++ [m])
  | .polled a => queues.erase a

variable {queues : KeyedMap A (List M)}

theorem queue_posted (m : M) (a' : A) : queue (step queues (.posted a m)) a' =
    if a' = a then queue queues a ++ [m] else queue queues a' := by
  show ((queues.insert a (queue queues a ++ [m])).lookup a').getD [] = _
  by_cases heq : a' = a
  · rw [if_pos heq, heq, Finmap.lookup_insert, Option.getD_some]
  · rw [if_neg heq, Finmap.lookup_insert_of_ne _ heq]
    rfl

theorem queue_polled (a' : A) : queue (step queues (.polled a)) a' =
    if a' = a then [] else queue queues a' := by
  show ((queues.erase a).lookup a').getD [] = _
  by_cases heq : a' = a
  · rw [if_pos heq, heq, Finmap.lookup_erase, Option.getD_none]
  · rw [if_neg heq, Finmap.lookup_erase_ne heq]
    rfl

/-- The queue of an address has what waits for its owner under this address. -/
def Sorted (owner : A → Option K) (queues : KeyedMap A (List M)) (history : List (Event A M)) : Prop :=
  ∀ k a, owner a = some k →
    queue queues a = ((waiting owner k history).filter fun p => p.1 = a).map Prod.snd

theorem Sorted.nil : Sorted owner (∅ : KeyedMap A (List M)) [] := by
  intro k a _
  simp [queue, waiting]

theorem Sorted.posted (h : Sorted owner queues history) (a : A) (m : M) :
    Sorted owner (step queues (.posted a m)) (history ++ [.posted a m]) := by
  intro k a' howner
  rw [queue_posted, waiting_posted]
  by_cases heq : a' = a
  · subst heq
    rw [if_pos rfl, if_pos howner, List.filter_append, List.map_append, h k a' howner]
    simp
  · rw [if_neg heq, h k a' howner]
    split
    · rw [List.filter_append]
      simp [Ne.symm heq]
    · rfl

/-- Nothing waits for the owner of `a` at another address. -/
def Alone (owner : A → Option K) (queues : KeyedMap A (List M)) (a : A) : Prop :=
  ∀ k, owner a = some k → ∀ a', a' ≠ a → owner a' = some k → queue queues a' = []

theorem Sorted.polled (h : Sorted owner queues history) (halone : Alone owner queues a) :
    Sorted owner (step queues (.polled a)) (history ++ [.polled a]) := by
  intro k a' howner
  rw [queue_polled, waiting_polled]
  by_cases howner' : owner a = some k
  · rw [if_pos howner', List.filter_nil, List.map_nil]
    split
    · rfl
    next hne => exact halone k howner' a' hne howner
  · have hne : a' ≠ a := by
      rintro rfl
      exact howner' howner
    rw [if_neg hne, if_neg howner', h k a' howner]

/-- **A poll returns all that waits for the owner** exactly when it is at one address. -/
theorem Sorted.queue_eq_waiting_iff (h : Sorted owner queues history) (a : A) :
    (∀ k, owner a = some k → queue queues a = (waiting owner k history).map Prod.snd) ↔
      Alone owner queues a := by
  constructor
  · intro hall k howner a' hne howner'
    have hlength := congrArg List.length ((h k a howner).symm.trans (hall k howner))
    rw [List.length_map, List.length_map, List.length_filter_eq_length_iff] at hlength
    rw [h k a' howner', List.filter_eq_nil_iff.mpr, List.map_nil]
    intro p hp heq
    have hsame : p.1 = a := of_decide_eq_true (hlength p hp)
    exact hne ((of_decide_eq_true heq).symm.trans hsame)
  · intro halone k howner
    rw [h k a howner, List.filter_eq_self.mpr]
    intro p hp
    by_contra hne
    -- its address would have a message waiting
    have hne : p.1 ≠ a := fun heq => hne (decide_eq_true heq)
    have howner' := owner_of_mem_waiting hp
    have hempty := halone k howner p.1 hne howner'
    rw [h k p.1 howner', List.map_eq_nil_iff, List.filter_eq_nil_iff] at hempty
    exact hempty p hp (decide_eq_true rfl)

end Mailbox
