import Mathlib.Data.List.Nodup
import Haze.Crypto
import Haze.Lib.Checked
import Haze.Lib.KeyedMap

/-!
# The Dandelion router (`p2p/src/dandelion.rs`)

A router remembers which transactions it has seen in the stem phase, and whether each was fluffed
since. `register_stem_tx` spawns a task that sleeps and then fluffs the transaction itself, by calling
`on_timeout`, unless somebody else did so before.

Every access to the map is made under its lock, so a schedule is a list of operations, `DandelionOp`. A
task that wakes up makes two of them: under the lock it asks for the flag and sets it, and when it has let
go of the lock it calls its `on_timeout`. How long a task sleeps is left out: it may wake up at any time
after it was spawned, and in any order with the others. Nothing is known of a callback, whose type is
the parameter `κ`.

Flags, tasks and the bound of the map are as they should be in every schedule. That a callback does not
run once its transaction is marked is true of a mark that comes before the task asks; one that comes
between the asking and the call is too late (`called_after_mark`).
-/

namespace Haze

/-- `MAX_SEEN_STEMS`. -/
def maxSeenStems : ℕ := 200000

/-- A task spawned by `register_stem_tx`: what its closure captured. -/
structure StemTimer (κ : Type) where
  txId : Bytes32
  onTimeout : κ

/-- The router, with the tasks it has spawned that are asleep. -/
structure DandelionRouter (κ : Type) where
  seenStems : KeyedMap Bytes32 Bool
  timers : List (StemTimer κ)

namespace DandelionRouter

variable {κ : Type}

/-- `DandelionRouter::new`. -/
def new : DandelionRouter κ := ⟨∅, []⟩

variable (r : DandelionRouter κ)

def registerStemTx (txId : Bytes32) (onTimeout : κ) : DandelionRouter κ :=
  if txId ∈ r.seenStems then r
  else if maxSeenStems ≤ r.seenStems.keys.card then r
  else
    { seenStems := r.seenStems.insert txId false
      timers := r.timers ++ [⟨txId, onTimeout⟩] }

/-- What a task does under the lock when its sleep is over; the result says whether it goes on to call its
`on_timeout` (`trigger_fluff`). -/
def wake (timer : ℕ) : DandelionRouter κ × Option (StemTimer κ) :=
  match r.timers[timer]? with
  | none => (r, none)
  | some t =>
      if r.seenStems.lookup t.txId = some false then
        (⟨r.seenStems.insert t.txId true, r.timers.eraseIdx timer⟩, some t)
      else
        (⟨r.seenStems, r.timers.eraseIdx timer⟩, none)

def markFluffed (txId : Bytes32) : DandelionRouter κ :=
  if txId ∉ r.seenStems ∧ maxSeenStems ≤ r.seenStems.keys.card then r
  else { r with seenStems := r.seenStems.insert txId true }

def isFluffed (txId : Bytes32) : Bool :=
  (r.seenStems.lookup txId).getD false

/-! ## The flag of a transaction

A flag that is set stays set: the map is written with `true` only, apart from the entry of a new
transaction. -/

variable {r} {txId : Bytes32}

theorem isFluffed_iff : r.isFluffed txId = true ↔ r.seenStems.lookup txId = some true := by
  rw [isFluffed]
  cases r.seenStems.lookup txId <;> simp

theorem lookup_insert_true (h : r.seenStems.lookup txId = some true) (id : Bytes32) :
    (r.seenStems.insert id true).lookup txId = some true := by
  by_cases hid : txId = id
  · subst hid
    exact Finmap.lookup_insert _
  · rw [Finmap.lookup_insert_of_ne _ hid, h]

/-- A transaction that is in the map is not registered again, so its flag is not taken back. -/
theorem fluffed_registerStemTx (h : r.seenStems.lookup txId = some true) (id : Bytes32) (onTimeout : κ) :
    (r.registerStemTx id onTimeout).seenStems.lookup txId = some true := by
  unfold registerStemTx
  split
  · exact h
  next hnew =>
    split
    · exact h
    · have hne : txId ≠ id := by
        rintro rfl
        exact hnew (Finmap.mem_of_lookup_eq_some h)
      rw [Finmap.lookup_insert_of_ne _ hne, h]

theorem fluffed_wake (h : r.seenStems.lookup txId = some true) (timer : ℕ) :
    (r.wake timer).1.seenStems.lookup txId = some true := by
  unfold wake
  split
  · exact h
  · split
    · exact lookup_insert_true h _
    · exact h

theorem fluffed_markFluffed (h : r.seenStems.lookup txId = some true) (id : Bytes32) :
    (r.markFluffed id).seenStems.lookup txId = some true := by
  unfold markFluffed
  split
  · exact h
  · exact lookup_insert_true h id

end DandelionRouter

/-! ## Schedules

Handlers and timer tasks share the router behind a mutex. A schedule lists what each of them does while it
has the lock, and calls of `on_timeout`, which a task makes after it has let go of it. -/

/-- A router in a schedule. -/
structure DandelionRun (κ : Type) where
  router : DandelionRouter κ
  /-- The tasks that have set a flag, and have still to call their `on_timeout`. -/
  firing : List (StemTimer κ)
  /-- Those that have called it, in that order. -/
  called : List (StemTimer κ)

inductive DandelionOp (κ : Type) where
  | registerStemTx (txId : Bytes32) (onTimeout : κ)
  | markFluffed (txId : Bytes32)
  | isFluffed (txId : Bytes32)
  /-- The sleep of a task is over: the position of the task among those asleep. -/
  | wake (timer : ℕ)
  /-- A task calls its `on_timeout`: its position among those that have set a flag. -/
  | onTimeout (task : ℕ)

namespace DandelionRun

variable {κ : Type}

def new : DandelionRun κ := ⟨.new, [], []⟩

variable (s : DandelionRun κ)

def step : DandelionOp κ → DandelionRun κ
  | .registerStemTx txId onTimeout => { s with router := s.router.registerStemTx txId onTimeout }
  | .markFluffed txId => { s with router := s.router.markFluffed txId }
  -- the answer goes to the caller, the router stays as it is
  | .isFluffed _ => s
  | .wake timer =>
      let (router, fired) := s.router.wake timer
      { s with router := router, firing := s.firing ++ fired.toList }
  | .onTimeout task =>
      match s.firing[task]? with
      | none => s
      | some t => { s with firing := s.firing.eraseIdx task, called := s.called ++ [t] }

/-- A schedule of operations. -/
def run (ops : List (DandelionOp κ)) : DandelionRun κ :=
  ops.foldl step s

theorem run_append (ops more : List (DandelionOp κ)) :
    s.run (ops ++ more) = (s.run ops).run more :=
  List.foldl_append

/-- How many callbacks registered for a transaction have run. -/
def calls (txId : Bytes32) : ℕ :=
  (s.called.map StemTimer.txId).count txId

/-! ## What a step can do

Everything below is proved of the five moves a schedule can make, and not of the operations. -/

/-- The steps that change something. -/
inductive Moves : DandelionOp κ → DandelionRun κ → Prop where
  | register {txId : Bytes32} {onTimeout : κ} (hnew : txId ∉ s.router.seenStems)
      (hroom : s.router.seenStems.keys.card < maxSeenStems) :
      Moves (.registerStemTx txId onTimeout)
        { s with
          router := ⟨s.router.seenStems.insert txId false, s.router.timers ++ [⟨txId, onTimeout⟩]⟩ }
  | mark {txId : Bytes32}
      (hroom : txId ∈ s.router.seenStems ∨ s.router.seenStems.keys.card < maxSeenStems) :
      Moves (.markFluffed txId)
        { s with router := ⟨s.router.seenStems.insert txId true, s.router.timers⟩ }
  | fire {timer : ℕ} {t : StemTimer κ} (ht : s.router.timers[timer]? = some t)
      (hstem : s.router.seenStems.lookup t.txId = some false) :
      Moves (.wake timer)
        { s with
          router := ⟨s.router.seenStems.insert t.txId true, s.router.timers.eraseIdx timer⟩
          firing := s.firing ++ [t] }
  | late {timer : ℕ} {t : StemTimer κ} (ht : s.router.timers[timer]? = some t)
      (hstem : s.router.seenStems.lookup t.txId ≠ some false) :
      Moves (.wake timer)
        { s with router := ⟨s.router.seenStems, s.router.timers.eraseIdx timer⟩ }
  | call {task : ℕ} {t : StemTimer κ} (ht : s.firing[task]? = some t) :
      Moves (.onTimeout task)
        { s with firing := s.firing.eraseIdx task, called := s.called ++ [t] }

theorem step_cases (op : DandelionOp κ) : s.step op = s ∨ Moves s op (s.step op) := by
  cases op with
  | registerStemTx txId onTimeout =>
      simp only [step, DandelionRouter.registerStemTx]
      -- tracked already, or no room in the map
      split
      · exact .inl rfl
      · next hnew =>
        split
        · exact .inl rfl
        · next hroom => exact .inr (.register hnew (Nat.lt_of_not_le hroom))
  | markFluffed txId =>
      simp only [step, DandelionRouter.markFluffed]
      split
      · exact .inl rfl
      · next hroom =>
        refine .inr (.mark ?_)
        by_cases htracked : txId ∈ s.router.seenStems
        · exact .inl htracked
        · exact .inr (Nat.lt_of_not_le fun hfull => hroom ⟨htracked, hfull⟩)
  | isFluffed txId => exact .inl rfl
  | wake timer =>
      simp only [step, DandelionRouter.wake]
      cases ht : s.router.timers[timer]? with
      | none => exact .inl (by simp)
      | some t =>
          -- the flag is asked and set in one go; a task that finds it set has nothing to do
          by_cases hstem : s.router.seenStems.lookup t.txId = some false
          · simp only [if_pos hstem]
            exact .inr (.fire ht hstem)
          · simp only [if_neg hstem, Option.toList_none, List.append_nil]
            exact .inr (.late ht hstem)
  | onTimeout task =>
      simp only [step]
      split
      · exact .inl rfl
      · next t ht => exact .inr (.call ht)

/-- **The run rule.** A property that every move preserves is preserved by every schedule. -/
theorem run_induct {motive : DandelionRun κ → Prop}
    (move : ∀ s op s', Moves s op s' → motive s → motive s') {s : DandelionRun κ} (hs : motive s)
    (ops : List (DandelionOp κ)) : motive (s.run ops) := by
  refine Checked.foldl_induct hs ?_ ops
  intro s op hs
  rcases s.step_cases op with heq | hmove
  · rw [heq]
    exact hs
  · exact move s op _ hmove hs

/-! ## The invariant of a schedule

A timer task is asleep, or has set the flag and still has its call to make, or has made it. Handing a task
on keeps these three lists together what they were; only a registration adds a task. -/

/-- The tasks that were spawned and have not given up: asleep, about to call, or done. -/
def tasks : List (StemTimer κ) :=
  s.router.timers ++ s.firing ++ s.called

/-- A task is spawned for a transaction the map did not hold, and the map forgets none: each
transaction has one task at most. -/
structure Good : Prop where
  bounded : s.router.seenStems.keys.card ≤ maxSeenStems
  tracked : ∀ t ∈ s.tasks, t.txId ∈ s.router.seenStems
  once : (s.tasks.map StemTimer.txId).Nodup

theorem good_new : (new : DandelionRun κ).Good where
  bounded := Nat.zero_le _
  tracked := fun _ ht => nomatch ht
  once := List.nodup_nil

/-- Handing a task on from one list to the next leaves the tasks as they are. -/
theorem perm_handed {tasks : List (StemTimer κ)} {i : ℕ} {t : StemTimer κ} (ht : tasks[i]? = some t)
    (next : List (StemTimer κ)) : (tasks.eraseIdx i ++ (next ++ [t])).Perm (tasks ++ next) := by
  obtain ⟨hlt, rfl⟩ := List.getElem?_eq_some_iff.mp ht
  rw [← List.append_assoc]
  refine List.perm_append_comm.trans ?_
  exact (List.getElem_cons_eraseIdx_perm hlt).append_right next

variable {s}

/-- The invariant only looks at the tasks as a whole. -/
theorem Good.of_perm (hs : s.Good) {s' : DandelionRun κ} (hperm : s'.tasks.Perm s.tasks)
    (hkeep : ∀ txId ∈ s.router.seenStems, txId ∈ s'.router.seenStems)
    (hbounded : s'.router.seenStems.keys.card ≤ maxSeenStems) : s'.Good :=
  ⟨hbounded, fun t ht => hkeep _ (hs.tracked t (hperm.mem_iff.mp ht)),
    (hperm.map _).nodup_iff.mpr hs.once⟩

theorem Moves.good {op : DandelionOp κ} {s' : DandelionRun κ} (hmove : Moves s op s')
    (hs : s.Good) : s'.Good := by
  cases hmove with
  | @register txId onTimeout hnew hroom =>
      have hperm : (s.router.timers ++ [StemTimer.mk txId onTimeout] ++ s.firing ++ s.called).Perm
          (⟨txId, onTimeout⟩ :: s.tasks) := by
        rw [tasks]
        simp only [List.append_assoc]
        exact List.perm_middle
      refine ⟨?_, ?_, ?_⟩
      · rw [KeyedMap.keys_insert]
        exact (Finset.card_insert_le _ _).trans hroom
      · intro t ht
        rcases List.mem_cons.mp (hperm.mem_iff.mp ht) with rfl | ht
        · exact Finmap.mem_insert.mpr (.inl rfl)
        · exact Finmap.mem_insert.mpr (.inr (hs.tracked t ht))
      · rw [tasks, (hperm.map _).nodup_iff, List.map_cons, List.nodup_cons]
        refine ⟨?_, hs.once⟩
        -- a transaction with a task is in the map, this one is not
        intro hmem
        obtain ⟨t, ht, htx⟩ := List.mem_map.mp hmem
        have htracked := hs.tracked t ht
        rw [htx] at htracked
        exact hnew htracked
  | @mark txId hroom =>
      refine hs.of_perm (.refl _) (fun _ hid => Finmap.mem_insert.mpr (.inr hid)) ?_
      rcases hroom with htracked | hroom
      · rw [KeyedMap.keys_insert_of_mem htracked]
        exact hs.bounded
      · rw [KeyedMap.keys_insert]
        exact (Finset.card_insert_le _ _).trans hroom
  | @fire timer t ht hstem =>
      refine hs.of_perm ?_ (fun _ hid => Finmap.mem_insert.mpr (.inr hid)) ?_
      · simp only [tasks]
        refine List.Perm.append_right s.called ?_
        exact perm_handed ht s.firing
      · rw [KeyedMap.keys_insert_of_mem (Finmap.mem_of_lookup_eq_some hstem)]
        exact hs.bounded
  | @late timer t ht hstem =>
      have hsub : (s.router.timers.eraseIdx timer ++ s.firing ++ s.called).Sublist s.tasks :=
        ((List.eraseIdx_sublist _ _).append_right _).append_right _
      exact ⟨hs.bounded, fun t' ht' => hs.tracked t' (hsub.subset ht'), hs.once.sublist (hsub.map _)⟩
  | @call task t ht =>
      refine hs.of_perm ?_ (fun _ hid => hid) hs.bounded
      simp only [tasks, List.append_assoc]
      exact (perm_handed ht s.called).append_left s.router.timers

theorem good_run (ops : List (DandelionOp κ)) : (new.run ops : DandelionRun κ).Good :=
  run_induct (fun _ _ _ hmove => hmove.good) good_new ops

theorem Good.calls_le_one (hs : s.Good) (txId : Bytes32) : s.calls txId ≤ 1 := by
  apply List.nodup_iff_count_le_one.mp
  have honce := hs.once
  rw [tasks, List.map_append] at honce
  exact honce.of_append_right

theorem fluffed_run {txId : Bytes32} (hset : s.router.seenStems.lookup txId = some true)
    (ops : List (DandelionOp κ)) : (s.run ops).router.seenStems.lookup txId = some true := by
  refine Checked.foldl_induct
    (motive := fun s : DandelionRun κ => s.router.seenStems.lookup txId = some true) hset ?_ ops
  intro s op hset
  cases op with
  | registerStemTx id onTimeout => exact DandelionRouter.fluffed_registerStemTx hset id onTimeout
  | markFluffed id => exact DandelionRouter.fluffed_markFluffed hset id
  | isFluffed id => exact hset
  | wake timer => exact DandelionRouter.fluffed_wake hset timer
  | onTimeout task =>
      simp only [step]
      split <;> exact hset

/-! ## A transaction that nobody will fluff again

A mark stops the timers of its transaction, but not a task that has set the flag and is about to call.
`InTime` says that the mark finds no such task. -/

variable {txId : Bytes32}

/-- Fluffed, or out of the map for good; and no task is about to call for it. -/
structure Settled (s : DandelionRun κ) (txId : Bytes32) : Prop where
  flag : s.router.seenStems.lookup txId = some true ∨
    (txId ∉ s.router.seenStems ∧ maxSeenStems ≤ s.router.seenStems.keys.card)
  quiet : ∀ t ∈ s.firing, t.txId ≠ txId

/-- What a mark has to observe: no task is between setting the flag of the transaction and calling its
`on_timeout`. -/
def InTime (s : DandelionRun κ) : DandelionOp κ → Prop
  | .markFluffed txId => ∀ t ∈ s.firing, t.txId ≠ txId
  | _ => True

instance (s : DandelionRun κ) : ∀ op, Decidable (InTime s op)
  | .markFluffed txId => inferInstanceAs (Decidable (∀ t ∈ s.firing, t.txId ≠ txId))
  | .registerStemTx _ _ => isTrue trivial
  | .isFluffed _ => isTrue trivial
  | .wake _ => isTrue trivial
  | .onTimeout _ => isTrue trivial

/-- A mark that finds no room leaves a full map behind. -/
theorem settled_markFluffed (hquiet : s.InTime (.markFluffed txId)) :
    (s.step (.markFluffed txId)).Settled txId := by
  refine ⟨?_, hquiet⟩
  simp only [step, DandelionRouter.markFluffed]
  split
  · next hfull => exact .inr hfull
  · exact .inl (Finmap.lookup_insert _)

theorem Moves.settled {op : DandelionOp κ} {s' : DandelionRun κ} (hmove : Moves s op s')
    (hset : s.Settled txId) : s'.Settled txId := by
  obtain ⟨hflag, hquiet⟩ := hset
  have hkeep : ∀ id, id ∈ s.router.seenStems ∨ s.router.seenStems.keys.card < maxSeenStems →
      (s.router.seenStems.insert id true).lookup txId = some true ∨
        (txId ∉ s.router.seenStems.insert id true ∧
          maxSeenStems ≤ (s.router.seenStems.insert id true).keys.card) := by
    intro id hid
    rcases hflag with hfluffed | ⟨hout, hfull⟩
    · exact .inl (DandelionRouter.lookup_insert_true hfluffed id)
    · have hid := hid.resolve_right (Nat.not_lt.mpr hfull)
      rw [← Finmap.mem_keys, KeyedMap.keys_insert_of_mem hid]
      exact .inr ⟨mt Finmap.mem_keys.mp hout, hfull⟩
  cases hmove with
  | @register id onTimeout hnew hroom =>
      refine ⟨?_, hquiet⟩
      rcases hflag with hfluffed | ⟨-, hfull⟩
      · have hne : txId ≠ id := by
          rintro rfl
          exact hnew (Finmap.mem_of_lookup_eq_some hfluffed)
        exact .inl ((Finmap.lookup_insert_of_ne _ hne).trans hfluffed)
      · exact absurd hroom (Nat.not_lt.mpr hfull)
  | mark hroom => exact ⟨hkeep _ hroom, hquiet⟩
  | @fire timer t ht hstem =>
      refine ⟨hkeep _ (.inl (Finmap.mem_of_lookup_eq_some hstem)), ?_⟩
      rw [List.forall_mem_append, List.forall_mem_singleton]
      refine ⟨hquiet, ?_⟩
      -- a task fires only for a transaction that is in the map and not fluffed
      rintro rfl
      rcases hflag with hfluffed | ⟨hout, -⟩
      · rw [hfluffed] at hstem
        cases hstem
      · exact hout (Finmap.mem_of_lookup_eq_some hstem)
  | late ht hstem => exact ⟨hflag, hquiet⟩
  | call ht => exact ⟨hflag, fun t ht' => hquiet t (List.mem_of_mem_eraseIdx ht')⟩

theorem Moves.calls_of_settled {op : DandelionOp κ} {s' : DandelionRun κ} (hmove : Moves s op s')
    (hset : s.Settled txId) : s'.calls txId = s.calls txId := by
  cases hmove with
  | register hnew hroom => rfl
  | mark hroom => rfl
  | fire ht hstem => rfl
  | late ht hstem => rfl
  | @call task t ht =>
      have hne : t.txId ≠ txId := hset.quiet t (List.mem_of_getElem? ht)
      simp [calls, hne]

/-- From a settled state on, no callback of the transaction runs. -/
theorem calls_run_of_settled (ops : List (DandelionOp κ)) (hset : s.Settled txId) :
    (s.run ops).Settled txId ∧ (s.run ops).calls txId = s.calls txId := by
  refine run_induct (motive := fun s' => s'.Settled txId ∧ s'.calls txId = s.calls txId) ?_
    ⟨hset, rfl⟩ ops
  rintro s₁ op s₂ hmove ⟨hs, hcalls⟩
  exact ⟨hmove.settled hs, (hmove.calls_of_settled hs).trans hcalls⟩

/-- A mark in time settles the transaction, also when it finds no room. -/
theorem settled_run_of_marked {ops : List (DandelionOp κ)}
    (hguarded : Checked.Guarded step InTime s ops) (hmark : .markFluffed txId ∈ ops) :
    (s.run ops).Settled txId := by
  obtain ⟨before, after, rfl⟩ := List.append_of_mem hmark
  obtain ⟨-, hquiet, -⟩ := Checked.guarded_append.mp hguarded
  rw [run_append]
  exact (calls_run_of_settled after (settled_markFluffed hquiet)).1

/-- **The timers of a router.** At any point of any schedule: a fluffed transaction stays fluffed; of
the callbacks registered for a transaction one at most has run; and the map is within its bound. If the
marks so far have all been in time, then once a transaction is marked none of its callbacks runs any
more. -/
theorem timers_of_schedule (before after : List (DandelionOp κ)) (txId : Bytes32) :
    ((new.run before).router.isFluffed txId = true →
      (new.run (before ++ after)).router.isFluffed txId = true) ∧
    (new.run before).calls txId ≤ 1 ∧
    (Checked.Guarded step InTime new before → .markFluffed txId ∈ before →
      (new.run (before ++ after)).calls txId = (new.run before).calls txId) ∧
    (new.run before).router.seenStems.keys.card ≤ maxSeenStems := by
  rw [run_append]
  refine ⟨?_, (good_run before).calls_le_one txId, ?_, (good_run before).bounded⟩
  · intro hset
    exact DandelionRouter.isFluffed_iff.mpr (fluffed_run (DandelionRouter.isFluffed_iff.mp hset) after)
  · intro hguarded hmark
    exact (calls_run_of_settled after (settled_run_of_marked hguarded hmark)).2

end DandelionRun

namespace Devnet

/-- A transaction is registered and its task wakes up; it is marked before the task calls back. -/
def markedBetween : List (DandelionOp Unit) :=
  [.registerStemTx zeroHash (), .wake 0, .markFluffed zeroHash]

/-- The mark comes too late for the callback. -/
theorem called_after_mark :
    .markFluffed zeroHash ∈ markedBetween ∧ (DandelionRun.new.run markedBetween).calls zeroHash = 0 ∧
      (DandelionRun.new.run (markedBetween ++ [.onTimeout 0])).calls zeroHash = 1 := by
  refine ⟨by simp [markedBetween], ?_⟩
  decide +kernel

/-- Marked while its task is asleep, the transaction is left alone when the task wakes up. -/
theorem marked_in_time :
    (DandelionRun.new.run ([.registerStemTx zeroHash (), .markFluffed zeroHash] ++
      [.wake 0, .onTimeout 0])).calls zeroHash = 0 := by
  obtain ⟨-, -, hquiet, -⟩ := DandelionRun.timers_of_schedule
    [.registerStemTx zeroHash (), .markFluffed zeroHash] [.wake 0, .onTimeout 0] zeroHash
  exact (hquiet (by decide +kernel) (by simp)).trans (by decide +kernel)

end Devnet

end Haze
