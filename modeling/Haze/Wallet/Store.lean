import Haze.Transaction
import Mathlib.Data.Finset.Basic
import Mathlib.Data.List.Sort

/-!
# The wallet's ledger (`wallet/src/store.rs`)

The outputs a wallet owns, in the order they were added, each with what the wallet believes about it.
The wallet marks an output spent when it has handed in a transaction that spends it, and `reconcile`
corrects the statuses by the coins of the chain.
-/

namespace Haze

variable {P : Crypto}

/-! ## Changing the first match

The ledger is a list, and most operations change the first entry that matches. How such changes commute and
how one undoes another is said here for any list. -/

section UpdateFirst

variable {α β : Type}

/-- `iter_mut().find(p)`, and a change to what is found. -/
def updateFirst (p : α → Bool) (f : α → α) : List α → List α
  | [] => []
  | x :: xs => if p x then f x :: xs else x :: updateFirst p f xs

/-- A change that keeps `g` keeps `g` of the whole list. -/
theorem map_updateFirst {p : α → Bool} {f : α → α} {g : α → β} (hg : ∀ x, g (f x) = g x)
    (xs : List α) : (updateFirst p f xs).map g = xs.map g := by
  induction xs with
  | nil => rfl
  | cons x xs ih =>
      rw [updateFirst]
      split
      · rw [List.map_cons, List.map_cons, hg]
      · rw [List.map_cons, List.map_cons, ih]

theorem find?_updateFirst_self {p : α → Bool} {f : α → α} (hp : ∀ x, p x = true → p (f x) = true)
    (xs : List α) : (updateFirst p f xs).find? p = (xs.find? p).map f := by
  induction xs with
  | nil => rfl
  | cons x xs ih =>
      rw [updateFirst]
      by_cases hx : p x = true
      · rw [if_pos hx, List.find?_cons_of_pos (hp x hx), List.find?_cons_of_pos hx, Option.map_some]
      · rw [if_neg hx, List.find?_cons_of_neg hx, List.find?_cons_of_neg hx, ih]

/-- What is looked for elsewhere is found as before. -/
theorem find?_updateFirst_of_disjoint {p q : α → Bool} {f : α → α}
    (h : ∀ x, p x = true → q x ≠ true ∧ q (f x) ≠ true) (xs : List α) :
    (updateFirst p f xs).find? q = xs.find? q := by
  induction xs with
  | nil => rfl
  | cons x xs ih =>
      rw [updateFirst]
      by_cases hx : p x = true
      · rw [if_pos hx, List.find?_cons_of_neg (h x hx).2, List.find?_cons_of_neg (h x hx).1]
      · rw [if_neg hx, List.find?_cons, List.find?_cons, ih]

/-- Changes of different elements can be made in either order. -/
theorem updateFirst_comm {p q : α → Bool} {f g : α → α}
    (hp : ∀ x, p x = true → q x ≠ true ∧ q (f x) ≠ true)
    (hq : ∀ x, q x = true → p x ≠ true ∧ p (g x) ≠ true) (xs : List α) :
    updateFirst q g (updateFirst p f xs) = updateFirst p f (updateFirst q g xs) := by
  induction xs with
  | nil => rfl
  | cons x xs ih =>
      by_cases hpx : p x = true
      · obtain ⟨hqx, hqfx⟩ := hp x hpx
        simp only [updateFirst, if_pos hpx, if_neg hqx, if_neg hqfx]
      · by_cases hqx : q x = true
        · simp only [updateFirst, if_neg hpx, if_pos hqx, if_neg (hq x hqx).2]
        · simp only [updateFirst, if_neg hpx, if_neg hqx, ih]

/-- What finds a changed element, and nothing that the change passes over, takes the change back. -/
theorem updateFirst_undo {p q : α → Bool} {f g : α → α} {xs : List α}
    (hchanged : ∀ x, p x = true → q (f x) = true) (hpassed : ∀ x, q x = true → p x = true)
    (hback : ∀ x ∈ xs.find? p, g (f x) = x) : updateFirst q g (updateFirst p f xs) = xs := by
  induction xs with
  | nil => rfl
  | cons x xs ih =>
      by_cases hpx : p x = true
      · rw [updateFirst, if_pos hpx, updateFirst, if_pos (hchanged x hpx),
          hback x (List.find?_cons_of_pos hpx)]
      · have hqx : q x ≠ true := fun hqx => hpx (hpassed x hqx)
        rw [List.find?_cons_of_neg hpx] at hback
        rw [updateFirst, if_neg hpx, updateFirst, if_neg hqx, ih hback]

end UpdateFirst

/-! ## The ledger

Statuses go both ways. `mark_spent` is the wallet's own belief, and `reconcile` overrules it by the chain:
an output marked as spent that the chain still has is confirmed again. -/

/-- Reserved for the genesis output. -/
def genesisIndex : UInt32 := 4294967295

/-- Reserved for the reserve of the faucet. -/
def faucetIndex : UInt32 := 4294967294

inductive OutputStatus where
  | pending
  | confirmed
  | spent
  deriving DecidableEq

structure OwnedOutput (P : Crypto) where
  index : UInt32
  value : UInt64
  commitment : Commitment P
  status : OutputStatus
  deriving DecidableEq

structure WalletStore (P : Crypto) where
  outputs : List (OwnedOutput P)
  deriving DecidableEq

namespace WalletStore

/-- `WalletStore::default`. -/
def new : WalletStore P := ⟨[]⟩

variable (store : WalletStore P)

def hasIndex (index : UInt32) : Bool :=
  store.outputs.any fun o => o.index == index

def addOutput (index : UInt32) (value : UInt64) (commitment : Commitment P) (status : OutputStatus) :
    WalletStore P :=
  ⟨store.outputs ++ [⟨index, value, commitment, status⟩]⟩

def markSpent (c : Commitment P) : WalletStore P :=
  ⟨updateFirst (fun o => decide (o.commitment = c)) (fun o => { o with status := .spent })
    store.outputs⟩

/-- `for commitment in &spent_commitments { store.mark_spent(commitment) }`. -/
def markAllSpent (cs : List (Commitment P)) : WalletStore P :=
  cs.foldl markSpent store

/-- Takes `mark_spent` back. -/
def unmarkSpent (c : Commitment P) : WalletStore P :=
  ⟨updateFirst (fun o => decide (o.commitment = c ∧ o.status = .spent))
    (fun o => { o with status := .confirmed }) store.outputs⟩

/-- Takes `add_output` back. -/
def removePendingOutput (index : UInt32) : WalletStore P :=
  ⟨store.outputs.filter fun o => !decide (o.index = index ∧ o.status = .pending)⟩

/-- What `reconcile` makes of a status, when the commitment is or is not among the coins. -/
def reconciled (status : OutputStatus) (onChain : Bool) : OutputStatus :=
  match status, onChain with
  | .pending, true => .confirmed
  | .pending, false => .pending
  | .confirmed, true => .confirmed
  | .confirmed, false => .spent
  -- the spend has not taken effect
  | .spent, true => .confirmed
  | .spent, false => .spent

def reconcile (chainUtxos : Finset (Commitment P)) : WalletStore P :=
  ⟨store.outputs.map fun o =>
    { o with status := reconciled o.status (decide (o.commitment ∈ chainUtxos)) }⟩

/-- The total confirmed balance. -/
def balance : UInt64 :=
  ((store.outputs.filter fun o => o.status = .confirmed).map OwnedOutput.value).sum

def pendingBalance : UInt64 :=
  ((store.outputs.filter fun o => o.status = .pending).map OwnedOutput.value).sum

/-- `sort_by(|a, b| b.value.cmp(&a.value))`, a stable sort. -/
def byValue (outputs : List (OwnedOutput P)) : List (OwnedOutput P) :=
  outputs.insertionSort fun a b => b.value ≤ a.value

/-- Confirmed outputs, the largest first. -/
def spendable : List (OwnedOutput P) :=
  byValue (store.outputs.filter fun o => o.status = .confirmed)

/-- Confirmed and pending outputs, the largest first. -/
def spendableIncludingPending : List (OwnedOutput P) :=
  byValue (store.outputs.filter fun o => o.status = .confirmed || o.status = .pending)

/-! ## What the operations keep

An operation changes statuses or adds entries at the end, and only the removal of a pending output takes one
away. So commitments stay where they are, and a ledger without duplicates stays one. -/

variable {store} {o : OwnedOutput P} {c : Commitment P}

theorem mem_byValue {outputs : List (OwnedOutput P)} : o ∈ byValue outputs ↔ o ∈ outputs :=
  (List.perm_insertionSort _ _).mem_iff

theorem mem_spendable : o ∈ store.spendable ↔ o ∈ store.outputs ∧ o.status = .confirmed := by
  rw [spendable, mem_byValue, List.mem_filter, decide_eq_true_eq]

theorem mem_spendableIncludingPending :
    o ∈ store.spendableIncludingPending ↔
      o ∈ store.outputs ∧ (o.status = .confirmed ∨ o.status = .pending) := by
  rw [spendableIncludingPending, mem_byValue, List.mem_filter, Bool.or_eq_true, decide_eq_true_eq,
    decide_eq_true_eq]

/-- The commitments of the ledger, in order. -/
def commitments (store : WalletStore P) : List (Commitment P) :=
  store.outputs.map OwnedOutput.commitment

/-- Different outputs of a ledger without duplicates have different commitments. -/
theorem nodup_map_commitment {taken : List (OwnedOutput P)} (hdistinct : store.commitments.Nodup)
    (hnodup : taken.Nodup) (hmem : ∀ o ∈ taken, o ∈ store.outputs) :
    (taken.map OwnedOutput.commitment).Nodup := by
  apply (List.nodup_map_iff_inj_on hnodup).mpr
  intro o ho o' ho' heq
  exact List.inj_on_of_nodup_map hdistinct (hmem o ho) (hmem o' ho') heq

@[simp] theorem commitments_markSpent : (store.markSpent c).commitments = store.commitments := by
  apply map_updateFirst
  intro o
  rfl

@[simp] theorem commitments_markAllSpent {cs : List (Commitment P)} :
    (store.markAllSpent cs).commitments = store.commitments := by
  induction cs generalizing store with
  | nil => rfl
  | cons c cs ih => exact ih.trans commitments_markSpent

@[simp] theorem commitments_unmarkSpent : (store.unmarkSpent c).commitments = store.commitments := by
  apply map_updateFirst
  intro o
  rfl

@[simp] theorem commitments_foldl_unmarkSpent {cs : List (Commitment P)} :
    (cs.foldl unmarkSpent store).commitments = store.commitments := by
  induction cs generalizing store with
  | nil => rfl
  | cons c cs ih => exact ih.trans commitments_unmarkSpent

@[simp] theorem commitments_reconcile {utxos : Finset (Commitment P)} :
    (store.reconcile utxos).commitments = store.commitments := by
  simp [commitments, reconcile, List.map_map, Function.comp_def]

@[simp] theorem commitments_addOutput {index : UInt32} {value : UInt64} {status : OutputStatus} :
    (store.addOutput index value c status).commitments = store.commitments ++ [c] := by
  simp [commitments, addOutput]

/-! ## The status of a commitment

The status of a commitment is that of the first output that has it. Each operation either leaves it alone or
maps it, which is all that the invariants about spending need. -/

/-- What the wallet believes about a commitment. -/
def statusOf (store : WalletStore P) (c : Commitment P) : Option OutputStatus :=
  (store.outputs.find? fun o => decide (o.commitment = c)).map OwnedOutput.status

theorem statusOf_isSome_iff : (store.statusOf c).isSome ↔ c ∈ store.commitments := by
  rw [statusOf, Option.isSome_map, List.find?_isSome]
  simp [commitments]

/-- In a ledger without duplicates, the status of a commitment is that of its output. -/
theorem statusOf_of_mem (hnodup : store.commitments.Nodup) (ho : o ∈ store.outputs) :
    store.statusOf o.commitment = some o.status := by
  rw [statusOf, Option.map_eq_some_iff]
  cases hfind : store.outputs.find? fun x => decide (x.commitment = o.commitment) with
  | none =>
      have hnone := List.find?_eq_none.mp hfind o ho
      simp at hnone
  | some x =>
      have hcommitment : x.commitment = o.commitment := by simpa using List.find?_some hfind
      have hx : x = o :=
        List.inj_on_of_nodup_map hnodup (List.mem_of_find?_eq_some hfind) ho hcommitment
      exact ⟨x, rfl, by rw [hx]⟩

variable {c' : Commitment P}

theorem statusOf_markSpent_self :
    (store.markSpent c).statusOf c = (store.statusOf c).map fun _ => .spent := by
  rw [statusOf, markSpent, find?_updateFirst_self, statusOf, Option.map_map, Option.map_map]
  · rfl
  · exact fun _ h => h

theorem statusOf_markSpent_of_ne (h : c' ≠ c) :
    (store.markSpent c).statusOf c' = store.statusOf c' := by
  rw [statusOf, markSpent, find?_updateFirst_of_disjoint, statusOf]
  intro o ho
  have hc : o.commitment = c := of_decide_eq_true ho
  simp [hc, Ne.symm h]

theorem statusOf_markAllSpent {cs : List (Commitment P)} :
    (store.markAllSpent cs).statusOf c =
      if c ∈ cs then (store.statusOf c).map fun _ => .spent else store.statusOf c := by
  induction cs generalizing store with
  | nil => rfl
  | cons c₁ cs ih =>
      show ((store.markSpent c₁).markAllSpent cs).statusOf c = _
      rw [ih]
      by_cases hc : c = c₁
      · subst hc
        rw [statusOf_markSpent_self, if_pos List.mem_cons_self]
        split
        · rw [Option.map_map]
          rfl
        · rfl
      · rw [statusOf_markSpent_of_ne hc]
        simp [hc]

theorem statusOf_unmarkSpent_of_ne (h : c' ≠ c) :
    (store.unmarkSpent c).statusOf c' = store.statusOf c' := by
  rw [statusOf, unmarkSpent, find?_updateFirst_of_disjoint, statusOf]
  intro o ho
  have hc : o.commitment = c := (of_decide_eq_true ho).1
  simp [hc, Ne.symm h]

theorem statusOf_foldl_unmarkSpent {cs : List (Commitment P)} (h : c ∉ cs) :
    (cs.foldl unmarkSpent store).statusOf c = store.statusOf c := by
  induction cs generalizing store with
  | nil => rfl
  | cons c₁ cs ih =>
      rw [List.mem_cons, not_or] at h
      exact (ih h.2).trans (statusOf_unmarkSpent_of_ne h.1)

/-! ## Taking marks back

A sponsored payment that is not queued is undone: its marks and its change. The ledger is then what it was
before, as long as the marks were set on confirmed outputs. -/

/-- A mark on a confirmed output is taken back. -/
theorem unmarkSpent_markSpent (h : store.statusOf c = some .confirmed) :
    (store.markSpent c).unmarkSpent c = store := by
  obtain ⟨o, hfind, hstatus⟩ := Option.map_eq_some_iff.mp h
  have hundo : updateFirst (fun o => decide (o.commitment = c ∧ o.status = .spent))
      (fun o => { o with status := .confirmed }) (store.markSpent c).outputs = store.outputs := by
    apply updateFirst_undo
    · intro x hx
      exact decide_eq_true ⟨of_decide_eq_true hx, rfl⟩
    · intro x hx
      exact decide_eq_true (of_decide_eq_true hx).1
    · intro x hx
      obtain rfl := Option.some.inj (hfind.symm.trans hx)
      rw [← hstatus]
  rw [unmarkSpent, hundo]

/-- Marks on different commitments do not meet. -/
theorem unmarkSpent_markSpent_comm (h : c ≠ c') :
    (store.markSpent c').unmarkSpent c = (store.unmarkSpent c).markSpent c' := by
  have hcomm := updateFirst_comm (p := fun o : OwnedOutput P => decide (o.commitment = c'))
    (q := fun o => decide (o.commitment = c ∧ o.status = .spent))
    (f := fun o => { o with status := .spent }) (g := fun o => { o with status := .confirmed })
    (fun x hx => by
      have hx : x.commitment = c' := of_decide_eq_true hx
      simp [hx, Ne.symm h])
    (fun x hx => by
      have hx : x.commitment = c := (of_decide_eq_true hx).1
      simp [hx, h])
    store.outputs
  exact congrArg WalletStore.mk hcomm

theorem unmarkSpent_markAllSpent_comm {cs : List (Commitment P)} (h : c ∉ cs) :
    (store.markAllSpent cs).unmarkSpent c = (store.unmarkSpent c).markAllSpent cs := by
  induction cs generalizing store with
  | nil => rfl
  | cons c₁ cs ih =>
      rw [List.mem_cons, not_or] at h
      refine (ih h.2).trans ?_
      rw [unmarkSpent_markSpent_comm h.1]
      rfl

/-- The marks on confirmed outputs are taken back in the order they were made. -/
theorem foldl_unmarkSpent_markAllSpent {cs : List (Commitment P)} (hnodup : cs.Nodup)
    (h : ∀ c ∈ cs, store.statusOf c = some .confirmed) :
    cs.foldl unmarkSpent (store.markAllSpent cs) = store := by
  induction cs generalizing store with
  | nil => rfl
  | cons c cs ih =>
      obtain ⟨hc, hnodup⟩ := List.nodup_cons.mp hnodup
      have hfirst := unmarkSpent_markSpent (h c List.mem_cons_self)
      show cs.foldl unmarkSpent (((store.markSpent c).markAllSpent cs).unmarkSpent c) = store
      rw [unmarkSpent_markAllSpent_comm hc, hfirst]
      exact ih hnodup fun c' hc' => h c' (List.mem_cons_of_mem _ hc')

/-! ## Additions and removals

Change is added as pending, at the end. Its index is its own, so removing the pending output of that index
takes back exactly what was added. -/

/-- New outputs go to the end. -/
theorem statusOf_addOutput_of_mem {index : UInt32} {value : UInt64} {status : OutputStatus}
    (h : c' ∈ store.commitments) :
    (store.addOutput index value c status).statusOf c' = store.statusOf c' := by
  obtain ⟨o, ho⟩ : ∃ o, store.outputs.find? (fun o => decide (o.commitment = c')) = some o := by
    rw [← Option.isSome_iff_exists, List.find?_isSome]
    simpa [commitments] using h
  rw [statusOf, addOutput, List.find?_append, statusOf, ho]
  rfl

theorem statusOf_reconcile {utxos : Finset (Commitment P)} :
    (store.reconcile utxos).statusOf c =
      (store.statusOf c).map fun status => reconciled status (decide (c ∈ utxos)) := by
  rw [statusOf, reconcile, List.find?_map, Option.map_map, statusOf, Option.map_map]
  show Option.map _ (store.outputs.find? fun o => decide (o.commitment = c)) = _
  cases hfind : store.outputs.find? fun o => decide (o.commitment = c) with
  | none => rfl
  | some o =>
      have hc : o.commitment = c := by simpa using List.find?_some hfind
      simp [hc]

/-- A pending output that was added is removed by its index, and takes no other with it exactly if no
pending output had the index. -/
theorem removePendingOutput_addOutput_eq_iff {index : UInt32} {value : UInt64} :
    (store.addOutput index value c .pending).removePendingOutput index = store ↔
      ∀ o ∈ store.outputs, o.status = .pending → o.index ≠ index := by
  have hremoved : (store.addOutput index value c .pending).removePendingOutput index =
      ⟨store.outputs.filter fun o => !decide (o.index = index ∧ o.status = .pending)⟩ := by
    simp [removePendingOutput, addOutput, List.filter_append]
  rw [hremoved]
  constructor
  · intro h o ho hpending hindex
    have hkept := List.filter_eq_self.mp (congrArg outputs h) o ho
    simp [hpending, hindex] at hkept
  · intro h
    have hkept : store.outputs.filter (fun o => !decide (o.index = index ∧ o.status = .pending)) =
        store.outputs := by
      apply List.filter_eq_self.mpr
      intro o ho
      have hnot : ¬ (o.index = index ∧ o.status = .pending) := fun hboth => h o ho hboth.2 hboth.1
      rw [decide_eq_false hnot, Bool.not_false]
    rw [hkept]

/-- Only pending outputs are removed. -/
theorem statusOf_removePendingOutput {index : UInt32} (h : store.statusOf c = some .spent) :
    (store.removePendingOutput index).statusOf c = some .spent := by
  obtain ⟨o, ho, hspent⟩ := Option.map_eq_some_iff.mp h
  obtain ⟨hc, before, after, hsplit, hbefore⟩ := List.find?_eq_some_iff_append.mp ho
  rw [statusOf, Option.map_eq_some_iff]
  refine ⟨o, ?_, hspent⟩
  rw [removePendingOutput, List.find?_filter, List.find?_eq_some_iff_append]
  refine ⟨?_, before, after, hsplit, ?_⟩
  · simp [hspent, of_decide_eq_true hc]
  · intro x hx
    have hne := hbefore x hx
    simp only [Bool.not_eq_true', decide_eq_false_iff_not] at hne
    simp [hne]

end WalletStore

end Haze
