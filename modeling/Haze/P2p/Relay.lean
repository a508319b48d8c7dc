import Haze.Lib.Tasks
import Haze.Mempool
import Haze.P2p.Dandelion
import Haze.Registries

/-!
# Relaying transactions (`dispatch_dandelion_tx` and the `StemTx` and `FluffTx` arms)

A transaction reaches a node as a `StemTx`, as a `FluffTx` or from a client. It is passed on to one
peer, with a timer that fluffs it later, or it is fluffed: marked in the router, offered to the mempool
and broadcast. Connections, clients and timers each have a task; the tasks share the router and the
mempool and take their locks for one access at a time, so a run is an interleaving of accesses.

Two things are asked of a run. A node should hold what it announces (`announced_held`): the timer's
callback broadcasts without ever offering the transaction to the mempool. And it should announce a
transaction once (`announced_once`): whether it was fluffed is asked in one access and recorded in
another, and when the router's table is full it is not recorded at all; the mempool takes a second copy.
-/

namespace Haze

open Checked Tasks

variable {P : Crypto}

/-! ## The handlers

One handler or timer is a task that takes the router, the mempool and the connections one after the other. A
task is the next critical section of it, and what it does in between is nobody else's concern. -/

/-- What `bincode` is given of a transaction; `proofBytes` is `RangeProof::to_bytes`. -/
def Transaction.serde (proofBytes : P.RangeProof → List UInt8) (tx : Transaction P) : Serde :=
  .struct [
    .seq (tx.inputs.map fun i => .struct [i.commitment.serde]),
    .seq (tx.outputs.map fun o => .struct [o.commitment.serde, .bytes (proofBytes o.proof), .byteSeq o.note]),
    .seq (tx.kernels.map fun k => .struct [k.excess.serde, .u64 k.fee,
      .bytes ((P.scalarBytes k.signature.s).toList ++ (P.scalarBytes k.signature.e).toList)])]

/-- `compute_tx_id`. -/
def computeTxId (proofBytes : P.RangeProof → List UInt8) (tx : Transaction P) : Bytes32 :=
  P.sha256 (P.bincode (tx.serde proofBytes))

/-- `TxState`; in the stem phase, also whether a peer took the transaction (`forwarded`). -/
inductive Route where
  | stem (forwarded : Bool)
  | fluff

/-- What a task does next. `already` is `already_in_mempool`. -/
inductive RelayTask (P : Crypto) where
  /-- `dispatch_dandelion_tx` asks whether the transaction was fluffed. -/
  | dispatch (tx : Transaction P) (already : Bool)
  /-- `next_state`, and in the stem phase `send_to_random_peer`. -/
  | route (tx : Transaction P) (already : Bool)
  | registerStemTx (tx : Transaction P) (already forwarded : Bool)
  /-- The `FluffTx` arm asks whether the transaction was fluffed. -/
  | fluffTx (tx : Transaction P)
  /-- Without peers the transaction is broadcast even if the mempool refuses it: `always`. -/
  | markFluffed (tx : Transaction P) (already always : Bool)
  | addTransaction (tx : Transaction P) (already always : Bool)
  | broadcast (tx : Transaction P)

inductive RelayEvent (P : Crypto) where
  | offered (tx : Transaction P)
  | announced (tx : Transaction P)

/-- The shared state of a node, and what has happened so far. A timer's callback is the transaction that
it broadcasts. -/
structure Relay (P : Crypto) where
  router : DandelionRouter (Transaction P)
  mempool : Mempool P
  log : List (RelayEvent P)

namespace Relay

variable (serializedSize : Transaction P → Option UInt64) (proofBytes : P.RangeProof → List UInt8)

/-- One access of a task: the state afterwards, and what is left of the task. -/
def access (route : Route) (r : Relay P) : RelayTask P → Relay P × List (RelayTask P)
  | .dispatch tx already =>
      if r.router.isFluffed (computeTxId proofBytes tx) then (r, [])
      else (r, [.route tx already])
  | .route tx already =>
      match route with
      | .stem forwarded => (r, [.registerStemTx tx already forwarded])
      | .fluff => (r, [.markFluffed tx already false])
  | .registerStemTx tx already forwarded =>
      ({ r with router := r.router.registerStemTx (computeTxId proofBytes tx) tx },
        if forwarded then [] else [.markFluffed tx already true])
  | .fluffTx tx =>
      if r.router.isFluffed (computeTxId proofBytes tx) then (r, [])
      else (r, [.markFluffed tx false false])
  | .markFluffed tx already always =>
      ({ r with router := r.router.markFluffed (computeTxId proofBytes tx) },
        [.addTransaction tx already always])
  | .addTransaction tx already always =>
      if already then (r, [.broadcast tx])
      else
        match r.mempool.addTransaction serializedSize tx with
        | some mempool => ({ r with mempool := mempool, log := r.log ++ [.offered tx] }, [.broadcast tx])
        | none => ({ r with log := r.log ++ [.offered tx] }, if always then [.broadcast tx] else [])
  | .broadcast tx => ({ r with log := r.log ++ [.announced tx] }, [])

end Relay

/-- A node with its tasks. -/
abbrev RelayNode (P : Crypto) := System (Relay P) (RelayTask P)

inductive RelayOp (P : Crypto) where
  | stemTx (tx : Transaction P)
  | fluffTx (tx : Transaction P)
  /-- `handle_submit_transaction`. -/
  | submit (tx : Transaction P)
  /-- The sleep of a timer is over. -/
  | timeout (timer : ℕ)
  /-- A task makes its next access. -/
  | run (task : ℕ) (route : Route)
  /-- What else is done with the mempool, by blocks, the proposer and other messages. -/
  | pool (mempool : Mempool P)

namespace RelayNode

variable (serializedSize : Transaction P → Option UInt64) (proofBytes : P.RangeProof → List UInt8)

def start (mempool : Mempool P) : RelayNode P := ⟨⟨.new, mempool, []⟩, []⟩

/-- The timer that goes on to its callback when its sleep is over: its transaction has not been fluffed. -/
def due (n : RelayNode P) (timer : ℕ) : Option (StemTimer (Transaction P)) :=
  (n.shared.router.wake timer).2

def step (n : RelayNode P) : RelayOp P → RelayNode P
  | .stemTx tx => n.spawn (.dispatch tx false)
  | .fluffTx tx => n.spawn (.fluffTx tx)
  | .submit tx =>
      if !tx.validate then n
      else
        match n.shared.mempool.addTransaction serializedSize tx with
        | some mempool =>
            System.spawn ⟨{ n.shared with
              mempool := mempool
              log := n.shared.log ++ [.offered tx] }, n.waiting⟩ (.dispatch tx true)
        | none => ⟨{ n.shared with log := n.shared.log ++ [.offered tx] }, n.waiting⟩
  | .timeout timer =>
      let n' : RelayNode P := ⟨{ n.shared with router := (n.shared.router.wake timer).1 }, n.waiting⟩
      -- the callback is an access of its own
      match n.due timer with
      | some t => n'.spawn (.broadcast t.onTimeout)
      | none => n'
  | .run task route => n.resume (Relay.access serializedSize proofBytes route) task
  | .pool mempool => ⟨{ n.shared with mempool := mempool }, n.waiting⟩

/-! ## A node holds what it announces

Every path to a broadcast goes through the mempool, but the answer of the mempool is carried along in a
flag. The invariant says of each waiting task that its flag is true to the log. -/

/-- Everything that was announced had been offered to the mempool. -/
def AnnouncedHeld (log : List (RelayEvent P)) : Prop :=
  ∀ before tx after, log = before ++ .announced tx :: after → .offered tx ∈ before

theorem AnnouncedHeld.concat {log : List (RelayEvent P)} (h : AnnouncedHeld log) {e : RelayEvent P}
    (he : ∀ tx, e = .announced tx → .offered tx ∈ log) : AnnouncedHeld (log ++ [e]) := by
  intro before tx after heq
  rcases List.eq_nil_or_concat after with rfl | ⟨after, e', rfl⟩
  · obtain ⟨rfl, hlast⟩ := List.append_inj' heq rfl
    exact he tx (List.singleton_inj.mp hlast)
  · rw [List.concat_eq_append, ← List.cons_append, ← List.append_assoc] at heq
    exact h before tx after (List.append_inj' heq rfl).1

/-- The transactions that a task takes to be offered. -/
def vouches : RelayTask P → List (Transaction P)
  | .dispatch tx already => if already then [tx] else []
  | .route tx already => if already then [tx] else []
  | .registerStemTx tx already _ => if already then [tx] else []
  | .fluffTx _ => []
  | .markFluffed tx already _ => if already then [tx] else []
  | .addTransaction tx already _ => if already then [tx] else []
  | .broadcast tx => [tx]

/-- What a task relies on. -/
def Vouched (r : Relay P) (t : RelayTask P) : Prop :=
  ∀ tx ∈ vouches t, .offered tx ∈ r.log

/-- What the timers have to observe: one that fires has a transaction that was offered. -/
def Backed (n : RelayNode P) : RelayOp P → Prop
  | .timeout timer => ∀ t ∈ n.due timer, .offered t.onTimeout ∈ n.shared.log
  | _ => True

variable {serializedSize proofBytes}

/-- An access only adds to the log. -/
theorem log_access (route : Route) (r : Relay P) (t : RelayTask P) :
    ∃ new, (r.access serializedSize proofBytes route t).1.log = r.log ++ new := by
  cases t with
  | dispatch tx already =>
      simp only [Relay.access]
      split <;> exact ⟨[], by simp⟩
  | route tx already => cases route <;> exact ⟨[], by simp [Relay.access]⟩
  | registerStemTx tx already forwarded => exact ⟨[], by simp [Relay.access]⟩
  | fluffTx tx =>
      simp only [Relay.access]
      split <;> exact ⟨[], by simp⟩
  | markFluffed tx already always => exact ⟨[], by simp [Relay.access]⟩
  | addTransaction tx already always =>
      simp only [Relay.access]
      split
      · exact ⟨[], by simp⟩
      · split <;> exact ⟨_, rfl⟩
  | broadcast tx => exact ⟨_, rfl⟩

theorem vouched_mono {r r' : Relay P} {new : List (RelayEvent P)} (hlog : r'.log = r.log ++ new)
    {t : RelayTask P} (ht : Vouched r t) : Vouched r' t := by
  intro tx htx
  rw [hlog]
  exact List.mem_append_left _ (ht tx htx)

theorem vouched_access (route : Route) {r : Relay P} {t : RelayTask P} (hr : AnnouncedHeld r.log)
    (ht : Vouched r t) :
    AnnouncedHeld (r.access serializedSize proofBytes route t).1.log ∧
      ∀ t' ∈ (r.access serializedSize proofBytes route t).2,
        Vouched (r.access serializedSize proofBytes route t).1 t' := by
  cases t with
  | dispatch tx already =>
      simp only [Relay.access]
      split
      · exact ⟨hr, by simp⟩
      · exact ⟨hr, List.forall_mem_singleton.mpr ht⟩
  | route tx already =>
      cases route with
      | stem forwarded => exact ⟨hr, List.forall_mem_singleton.mpr ht⟩
      | fluff => exact ⟨hr, List.forall_mem_singleton.mpr ht⟩
  | registerStemTx tx already forwarded =>
      refine ⟨hr, ?_⟩
      cases forwarded with
      | true => simp [Relay.access]
      | false => exact List.forall_mem_singleton.mpr ht
  | fluffTx tx =>
      simp only [Relay.access]
      split
      · exact ⟨hr, by simp⟩
      · exact ⟨hr, by simp [Vouched, vouches]⟩
  | markFluffed tx already always => exact ⟨hr, List.forall_mem_singleton.mpr ht⟩
  | addTransaction tx already always =>
      -- a task that has not seen it in the mempool offers it, and the log says so whatever the answer is
      have hoffered : AnnouncedHeld (r.log ++ [.offered tx]) :=
        hr.concat fun tx' heq => nomatch heq
      have hnow : ∀ r' : Relay P, r'.log = r.log ++ [.offered tx] → Vouched r' (.broadcast tx) := by
        intro r' hlog tx' htx'
        rw [hlog, List.mem_singleton.mp htx']
        exact List.mem_append_right _ (List.mem_singleton_self _)
      simp only [Relay.access]
      split
      next halready =>
        refine ⟨hr, ?_⟩
        intro t' ht'
        rw [List.mem_singleton.mp ht']
        -- it was in the mempool already when the task asked
        simpa [Vouched, vouches, halready] using ht
      · split
        · refine ⟨hoffered, ?_⟩
          intro t' ht'
          rw [List.mem_singleton.mp ht']
          exact hnow _ rfl
        · refine ⟨hoffered, ?_⟩
          intro t' ht'
          cases always with
          | false => cases ht'
          | true =>
              rw [List.mem_singleton.mp ht']
              exact hnow _ rfl
  | broadcast tx =>
      refine ⟨hr.concat ?_, by simp [Relay.access]⟩
      rintro tx' ⟨⟩
      exact ht tx (List.mem_singleton_self _)

theorem step_held {n : RelayNode P} {op : RelayOp P}
    (h : n.All (fun r => AnnouncedHeld r.log) Vouched) (hop : n.Backed op) :
    (n.step serializedSize proofBytes op).All (fun r => AnnouncedHeld r.log) Vouched := by
  cases op with
  | stemTx tx => exact h.spawn fun tx' htx' => nomatch htx'
  | fluffTx tx => exact h.spawn fun tx' htx' => nomatch htx'
  | submit tx =>
      have hoffered : AnnouncedHeld (n.shared.log ++ [.offered tx]) :=
        h.shared.concat fun tx' heq => nomatch heq
      simp only [step]
      split
      · exact h
      · split
        next mempool _ =>
          refine (h.update hoffered fun t ht => vouched_mono rfl ht).spawn ?_
          intro tx' htx'
          rw [List.mem_singleton.mp htx']
          exact List.mem_append_right _ (List.mem_singleton_self _)
        · exact h.update hoffered fun t ht => vouched_mono rfl ht
  -- a timer broadcasts what it was given at registration; the condition on timers is used here
  | timeout timer =>
      have hwake : (System.mk { n.shared with router := (n.shared.router.wake timer).1 } n.waiting).All
          (fun r => AnnouncedHeld r.log) Vouched :=
        h.update h.shared fun t ht => ht
      simp only [step]
      split
      next t hdue =>
        refine hwake.spawn ?_
        intro tx' htx'
        rw [List.mem_singleton.mp htx']
        exact hop t hdue
      · exact hwake
  | run task route =>
      refine h.resume (fun t ht => vouched_access route h.shared ht) ?_ task
      intro t t' _ ht'
      -- the other tasks lose nothing, since the log only grows
      obtain ⟨new, hlog⟩ := @log_access P serializedSize proofBytes route n.shared t
      exact vouched_mono hlog ht'
  | pool mempool => exact h.update h.shared fun t ht => ht

/-- **A node holds what it announces**, in every run in which the timers that fire have transactions
that were offered before. -/
theorem announced_held {mempool : Mempool P} {ops : List (RelayOp P)}
    (h : Guarded (step serializedSize proofBytes) Backed (start mempool) ops) :
    AnnouncedHeld (ops.foldl (step serializedSize proofBytes) (start mempool)).shared.log := by
  have hstart : (start mempool).All (fun r => AnnouncedHeld r.log) Vouched := by
    refine ⟨?_, fun t ht => nomatch ht⟩
    intro before tx after heq
    simp [start] at heq
  exact (h.invariant (fun n op hn hop => step_held hn hop) hstart).shared

/-! ## A node announces a transaction once

A transaction is marked as fluffed before it is broadcast, and a task that finds the mark gives up. Between
the two critical sections another task can mark the same transaction, or the map can be full; then both
broadcast. `Apart` leaves these marks out. -/

/-- The transactions that were broadcast, in that order. -/
def announced (log : List (RelayEvent P)) : List (Transaction P) :=
  log.filterMap fun
    | .announced tx => some tx
    | .offered _ => none

@[simp] theorem announced_offered (log : List (RelayEvent P)) (tx : Transaction P) :
    announced (log ++ [.offered tx]) = announced log := by
  simp [announced]

@[simp] theorem announced_announced (log : List (RelayEvent P)) (tx : Transaction P) :
    announced (log ++ [.announced tx]) = announced log ++ [tx] := by
  simp [announced]

/-- The transactions that a task has marked as fluffed and may yet broadcast. -/
def carries : RelayTask P → List (Transaction P)
  | .addTransaction tx _ _ => [tx]
  | .broadcast tx => [tx]
  | _ => []

/-- What was broadcast or may yet be. -/
def carried (n : RelayNode P) : List (Transaction P) :=
  announced n.shared.log ++ n.waiting.flatMap carries

/-- What a task has to observe when it marks a transaction: nobody has since it asked, and the router
has a place for it. -/
def Apart (proofBytes : P.RangeProof → List UInt8) (n : RelayNode P) : RelayOp P → Prop
  | .run task _ => ∀ tx already always, n.waiting[task]? = some (.markFluffed tx already always) →
      n.shared.router.isFluffed (computeTxId proofBytes tx) = false ∧
        (computeTxId proofBytes tx ∈ n.shared.router.seenStems ∨
          n.shared.router.seenStems.keys.card < maxSeenStems)
  | _ => True

instance (proofBytes : P.RangeProof → List UInt8) (n : RelayNode P) :
    ∀ op, Decidable (Apart proofBytes n op)
  | .stemTx _ => isTrue trivial
  | .fluffTx _ => isTrue trivial
  | .submit _ => isTrue trivial
  | .timeout _ => isTrue trivial
  | .pool _ => isTrue trivial
  | .run task _ =>
      match ht : n.waiting[task]? with
      | some (.markFluffed tx already always) =>
          decidable_of_iff (n.shared.router.isFluffed (computeTxId proofBytes tx) = false ∧
            (computeTxId proofBytes tx ∈ n.shared.router.seenStems ∨
              n.shared.router.seenStems.keys.card < maxSeenStems)) (by simp [Apart, ht])
      | none => isTrue (by simp [Apart, ht])
      | some (.dispatch _ _) => isTrue (by simp [Apart, ht])
      | some (.route _ _) => isTrue (by simp [Apart, ht])
      | some (.registerStemTx _ _ _) => isTrue (by simp [Apart, ht])
      | some (.fluffTx _) => isTrue (by simp [Apart, ht])
      | some (.addTransaction _ _ _) => isTrue (by simp [Apart, ht])
      | some (.broadcast _) => isTrue (by simp [Apart, ht])

/-- The invariant: everything carried has its own flag in the router, and it is set. -/
structure Once (proofBytes : P.RangeProof → List UInt8) (n : RelayNode P) : Prop where
  nodup : (n.carried.map (computeTxId proofBytes)).Nodup
  fluffed : ∀ tx ∈ n.carried,
    n.shared.router.seenStems.lookup (computeTxId proofBytes tx) = some true
  timers : ∀ t ∈ n.shared.router.timers, t.txId = computeTxId proofBytes t.onTimeout

section Flags

variable {r : DandelionRouter (Transaction P)} {id id' : Bytes32} {tx : Transaction P}

theorem timers_registerStemTx (h : ∀ t ∈ r.timers, t.txId = computeTxId proofBytes t.onTimeout) :
    ∀ t ∈ (r.registerStemTx (computeTxId proofBytes tx) tx).timers,
      t.txId = computeTxId proofBytes t.onTimeout := by
  unfold DandelionRouter.registerStemTx
  split
  · exact h
  · split
    · exact h
    · exact List.forall_mem_append.mpr ⟨h, List.forall_mem_singleton.mpr rfl⟩

theorem timers_markFluffed : (r.markFluffed id).timers = r.timers := by
  unfold DandelionRouter.markFluffed
  split
  · rfl
  · rfl

theorem timers_wake {timer : ℕ} {t : StemTimer (Transaction P)} (h : t ∈ (r.wake timer).1.timers) :
    t ∈ r.timers := by
  unfold DandelionRouter.wake at h
  split at h
  · exact h
  · split at h
    · exact List.mem_of_mem_eraseIdx h
    · exact List.mem_of_mem_eraseIdx h

/-- A task that goes on to its callback was asleep; it has found the flag unset, and set it. -/
theorem wake_eq_some {timer : ℕ} {t : StemTimer (Transaction P)} (h : (r.wake timer).2 = some t) :
    t ∈ r.timers ∧ r.seenStems.lookup t.txId = some false ∧
      (r.wake timer).1.seenStems.lookup t.txId = some true := by
  unfold DandelionRouter.wake at h ⊢
  split at h
  · cases h
  next t' ht =>
    split at h
    next hstem =>
      obtain rfl := Option.some.inj h
      refine ⟨List.mem_of_getElem? ht, hstem, ?_⟩
      simp only [if_pos hstem]
      exact Finmap.lookup_insert _
    next => cases h

end Flags

variable {n n' : RelayNode P}

/-- Fewer transactions are carried and no flag is taken back. -/
theorem Once.mono (h : Once proofBytes n) (hsub : n'.carried.Subperm n.carried)
    (hflags : ∀ id, n.shared.router.seenStems.lookup id = some true →
      n'.shared.router.seenStems.lookup id = some true)
    (htimers : ∀ t ∈ n'.shared.router.timers, t.txId = computeTxId proofBytes t.onTimeout) :
    Once proofBytes n' := by
  refine ⟨?_, fun tx htx => hflags _ (h.fluffed tx (hsub.subset htx)), htimers⟩
  obtain ⟨txs, hperm, htxs⟩ := hsub
  exact (hperm.map _).nodup_iff.mp (h.nodup.sublist (htxs.map _))

/-- One more transaction is carried, whose flag was not set before. -/
theorem Once.add (h : Once proofBytes n) (tx : Transaction P)
    (hperm : n'.carried.Perm (tx :: n.carried))
    (hnew : n.shared.router.seenStems.lookup (computeTxId proofBytes tx) ≠ some true)
    (hset : n'.shared.router.seenStems.lookup (computeTxId proofBytes tx) = some true)
    (hflags : ∀ id, n.shared.router.seenStems.lookup id = some true →
      n'.shared.router.seenStems.lookup id = some true)
    (htimers : ∀ t ∈ n'.shared.router.timers, t.txId = computeTxId proofBytes t.onTimeout) :
    Once proofBytes n' := by
  refine ⟨?_, ?_, htimers⟩
  · rw [(hperm.map _).nodup_iff, List.map_cons, List.nodup_cons]
    refine ⟨?_, h.nodup⟩
    intro hmem
    obtain ⟨tx', htx', hid⟩ := List.mem_map.mp hmem
    rw [← hid] at hnew
    exact hnew (h.fluffed tx' htx')
  · intro tx' htx'
    rcases List.mem_cons.mp (hperm.mem_iff.mp htx') with rfl | htx'
    · exact hset
    · exact hflags _ (h.fluffed tx' htx')

/-- What an access does to the transactions that are carried, as long as it marks none. -/
theorem carried_resume {f : Relay P → RelayTask P → Relay P × List (RelayTask P)} {task : ℕ}
    {t : RelayTask P} (ht : n.waiting[task]? = some t)
    (hsub : (announced (f n.shared t).1.log ++ (f n.shared t).2.flatMap carries).Subperm
      (announced n.shared.log ++ carries t)) :
    (carried ⟨(f n.shared t).1, n.waiting.eraseIdx task ++ (f n.shared t).2⟩).Subperm n.carried := by
  have hrest : n.carried.Perm
      (announced n.shared.log ++ carries t ++ (n.waiting.eraseIdx task).flatMap carries) := by
    rw [List.append_assoc]
    exact (System.flatMap_eraseIdx carries ht).append_left _
  have hnew : (carried ⟨(f n.shared t).1, n.waiting.eraseIdx task ++ (f n.shared t).2⟩).Perm
      (announced (f n.shared t).1.log ++ (f n.shared t).2.flatMap carries ++
        (n.waiting.eraseIdx task).flatMap carries) := by
    rw [carried, List.flatMap_append, List.append_assoc]
    exact List.perm_append_comm.append_left _
  exact hnew.subperm.trans ((hsub.append (List.Subperm.refl _)).trans hrest.symm.subperm)

/-- An access that marks nothing carries nothing new and leaves the flags. -/
theorem Once.access (h : Once proofBytes n) (route : Route) {task : ℕ} {t : RelayTask P}
    (ht : n.waiting[task]? = some t)
    (hmark : ∀ tx already always, t ≠ .markFluffed tx already always) :
    Once proofBytes ⟨(n.shared.access serializedSize proofBytes route t).1,
      n.waiting.eraseIdx task ++ (n.shared.access serializedSize proofBytes route t).2⟩ := by
  cases t with
  | dispatch tx already =>
      refine h.mono (carried_resume ht ?_) ?_ ?_ <;> simp only [Relay.access]
      · split <;> exact List.Subperm.refl _
      -- only the registration and the mark write to the router
      · split <;> exact fun _ hid => hid
      · split <;> exact h.timers
  | route tx already =>
      cases route with
      | stem forwarded =>
          exact h.mono (carried_resume ht (List.Subperm.refl _)) (fun _ hid => hid) h.timers
      | fluff => exact h.mono (carried_resume ht (List.Subperm.refl _)) (fun _ hid => hid) h.timers
  | registerStemTx tx already forwarded =>
      refine h.mono (carried_resume ht ?_) (fun id hid => DandelionRouter.fluffed_registerStemTx hid _ tx)
        (timers_registerStemTx h.timers)
      cases forwarded <;> exact List.Subperm.refl _
  | fluffTx tx =>
      refine h.mono (carried_resume ht ?_) ?_ ?_ <;> simp only [Relay.access]
      · split <;> exact List.Subperm.refl _
      · split <;> exact fun _ hid => hid
      · split <;> exact h.timers
  | markFluffed tx already always => exact absurd rfl (hmark tx already always)
  -- the log has an offer more, and no announcement
  | addTransaction tx already always =>
      have hkeep : (announced (n.shared.log ++ [RelayEvent.offered tx]) ++ [tx]).Subperm
          (announced n.shared.log ++ [tx]) := by
        rw [announced_offered]
      refine h.mono (carried_resume ht ?_) ?_ ?_ <;> simp only [Relay.access]
      · split
        · exact List.Subperm.refl _
        · split
          · exact hkeep
          · cases always with
            | true => exact hkeep
            | false =>
                refine List.Subperm.trans ?_ hkeep
                exact ((List.nil_sublist [tx]).append_left _).subperm
      · split
        · exact fun _ hid => hid
        · split <;> exact fun _ hid => hid
      · split
        · exact h.timers
        · split <;> exact h.timers
  | broadcast tx =>
      refine h.mono (carried_resume ht (List.Perm.of_eq ?_).subperm) (fun _ hid => hid) h.timers
      simp [Relay.access, carries]

/-- A task marks a transaction that has no flag yet and finds a place for it. -/
theorem Once.mark (h : Once proofBytes n) (route : Route) {task : ℕ} {tx : Transaction P}
    {already always : Bool} (ht : n.waiting[task]? = some (.markFluffed tx already always))
    (hnew : n.shared.router.isFluffed (computeTxId proofBytes tx) = false)
    (hroom : computeTxId proofBytes tx ∈ n.shared.router.seenStems ∨
      n.shared.router.seenStems.keys.card < maxSeenStems) :
    let t := RelayTask.markFluffed tx already always
    Once proofBytes ⟨(n.shared.access serializedSize proofBytes route t).1,
      n.waiting.eraseIdx task ++ (n.shared.access serializedSize proofBytes route t).2⟩ := by
  refine h.add tx ?_ ?_ ?_ (fun id hid => DandelionRouter.fluffed_markFluffed hid _) ?_
  · have herase := System.flatMap_eraseIdx carries ht
    simp only [carried, Relay.access, List.flatMap_append, ← List.append_assoc]
    refine (List.perm_append_singleton _ _).trans ?_
    exact (herase.symm.append_left _).cons tx
  · intro hset
    rw [DandelionRouter.isFluffed_iff.mpr hset] at hnew
    cases hnew
  · rw [Relay.access, DandelionRouter.markFluffed, if_neg]
    · exact Finmap.lookup_insert _
    · rintro ⟨hout, hfull⟩
      exact hroom.elim hout (Nat.not_lt.mpr hfull)
  · rw [Relay.access, timers_markFluffed]
    exact h.timers

/-- A timer sets the flag that it finds unset, so what it announces was not carried. -/
theorem Once.timeout (h : Once proofBytes n) (timer : ℕ) :
    Once proofBytes (n.step serializedSize proofBytes (.timeout timer)) := by
  have hflags : ∀ id, n.shared.router.seenStems.lookup id = some true →
      (n.shared.router.wake timer).1.seenStems.lookup id = some true :=
    fun id hid => DandelionRouter.fluffed_wake hid timer
  have htimers : ∀ t ∈ (n.shared.router.wake timer).1.timers,
      t.txId = computeTxId proofBytes t.onTimeout :=
    fun t ht => h.timers t (timers_wake ht)
  simp only [RelayNode.step]
  split
  next t hdue =>
    obtain ⟨ht, hstem, hset⟩ := wake_eq_some hdue
    have hid := h.timers t ht
    rw [hid] at hstem hset
    refine h.add t.onTimeout ?_ ?_ hset hflags htimers
    · simp only [carried, System.spawn, List.flatMap_append, ← List.append_assoc]
      exact List.perm_append_singleton _ _
    · rw [hstem]
      simp
  · exact h.mono (List.Subperm.refl _) hflags htimers

theorem Once.step (h : Once proofBytes n) {op : RelayOp P} (hop : n.Apart proofBytes op) :
    Once proofBytes (n.step serializedSize proofBytes op) := by
  cases op with
  | stemTx tx =>
      refine h.mono (List.Perm.of_eq ?_).subperm (fun _ hid => hid) h.timers
      simp [RelayNode.step, System.spawn, carried, carries]
  | fluffTx tx =>
      refine h.mono (List.Perm.of_eq ?_).subperm (fun _ hid => hid) h.timers
      simp [RelayNode.step, System.spawn, carried, carries]
  | submit tx =>
      simp only [RelayNode.step]
      split
      · exact h
      · split
        · refine h.mono (List.Perm.of_eq ?_).subperm (fun _ hid => hid) h.timers
          simp [System.spawn, carried, carries]
        · refine h.mono (List.Perm.of_eq ?_).subperm (fun _ hid => hid) h.timers
          simp [carried]
  | timeout timer => exact h.timeout timer
  | run task route =>
      rcases System.resume_cases (Relay.access serializedSize proofBytes route) n task with
        heq | ⟨t, ht, heq⟩
      · rw [RelayNode.step, heq]
        exact h
      · rw [RelayNode.step, heq]
        by_cases hmark : ∃ tx already always, t = .markFluffed tx already always
        · obtain ⟨tx, already, always, rfl⟩ := hmark
          obtain ⟨hnew, hroom⟩ := hop tx already always ht
          exact h.mark route ht hnew hroom
        · push Not at hmark
          exact h.access route ht hmark
  | pool mempool => exact h.mono (List.Subperm.refl _) (fun _ hid => hid) h.timers

/-- **A node announces a transaction once**, in every run in which each mark finds the transaction
unmarked and the router with a place for it. -/
theorem announced_once {mempool : Mempool P} {ops : List (RelayOp P)}
    (h : Guarded (step serializedSize proofBytes) (Apart proofBytes) (start mempool) ops) :
    (announced (ops.foldl (step serializedSize proofBytes) (start mempool)).shared.log).Nodup := by
  have hstart : Once proofBytes (start mempool) :=
    ⟨List.nodup_nil, fun tx htx => (nomatch htx), fun t ht => (nomatch ht)⟩
  have honce := h.invariant (fun n op hn hop => Once.step hn hop) hstart
  have hnodup := honce.nodup.of_map
  exact hnodup.of_append_left

/-- The handling of a `FluffTx` from its arrival to its end, when nothing else is going on. -/
def fluffAlone (tx : Transaction P) : List (RelayOp P) :=
  [.fluffTx tx, .run 0 .fluff, .run 0 .fluff, .run 0 .fluff, .run 0 .fluff]

/-- Once the router's table is full, a transaction that has no place in it is announced each time it
arrives, as often as the mempool takes it. -/
theorem announced_again {tx : Transaction P} {mempool : Mempool P}
    (hfull : maxSeenStems ≤ n.shared.router.seenStems.keys.card)
    (hout : computeTxId proofBytes tx ∉ n.shared.router.seenStems) (hidle : n.waiting = [])
    (hadd : n.shared.mempool.addTransaction serializedSize tx = some mempool) :
    (fluffAlone tx).foldl (step serializedSize proofBytes) n =
      ⟨⟨n.shared.router, mempool, n.shared.log ++ [.offered tx, .announced tx]⟩, []⟩ := by
  have hflag : n.shared.router.isFluffed (computeTxId proofBytes tx) = false := by
    rw [DandelionRouter.isFluffed, Finmap.lookup_eq_none.mpr hout]
    rfl
  have hmark : n.shared.router.markFluffed (computeTxId proofBytes tx) = n.shared.router := by
    rw [DandelionRouter.markFluffed, if_pos ⟨hout, hfull⟩]
  simp [fluffAlone, step, System.spawn, System.resume, Relay.access, hidle, hflag, hmark, hadd]

end RelayNode

/-! ## Runs

Runs on the devnet, with tasks of two transactions in a chosen order. -/

section Equality

variable [DecidableEq P.RangeProof]

instance : DecidableEq (Output P) := fun o o' =>
  decidable_of_iff (o.commitment = o'.commitment ∧ o.proof = o'.proof ∧ o.note = o'.note) (by
    cases o
    cases o'
    simp)

instance : DecidableEq (Transaction P) := fun tx tx' =>
  decidable_of_iff (tx.inputs = tx'.inputs ∧ tx.outputs = tx'.outputs ∧ tx.kernels = tx'.kernels) (by
    cases tx
    cases tx'
    simp)

instance : DecidableEq (RelayEvent P)
  | .offered tx, .offered tx' => decidable_of_iff (tx = tx') (by simp)
  | .announced tx, .announced tx' => decidable_of_iff (tx = tx') (by simp)
  | .offered _, .announced _ => isFalse nofun
  | .announced _, .offered _ => isFalse nofun

instance (n : RelayNode P) : ∀ op, Decidable (n.Backed op)
  | .timeout timer => inferInstanceAs (Decidable (∀ t ∈ n.due timer, .offered t.onTimeout ∈ n.shared.log))
  | .stemTx _ => isTrue trivial
  | .fluffTx _ => isTrue trivial
  | .submit _ => isTrue trivial
  | .run _ _ => isTrue trivial
  | .pool _ => isTrue trivial

end Equality

namespace Devnet

open RelayNode

instance : DecidableEq crypto.RangeProof := inferInstanceAs (DecidableEq (UInt64 × BitVec 256))

/-- A proof is its opening. -/
def openingBytes (proof : crypto.RangeProof) : List UInt8 :=
  toLeBytes 40 (proof.1.toNat + proof.2.toNat * 2 ^ 64)

def relayed : Transaction crypto := payment 1000 11 12 5

def relayRun (ops : List (RelayOp crypto)) : RelayNode crypto :=
  ops.foldl (step serializedSize openingBytes) (start Mempool.new)

/-- A client's transaction is passed on to a peer; nobody fluffs it, so the timer does. -/
def submittedStem : List (RelayOp crypto) :=
  [.submit relayed, .run 0 (.stem true), .run 0 (.stem true), .run 0 (.stem true), .timeout 0, .run 0 .fluff]

theorem submittedStem_held :
    announced (relayRun submittedStem).shared.log = [relayed] ∧
      AnnouncedHeld (relayRun submittedStem).shared.log := by
  have hguarded : Guarded (step serializedSize openingBytes) Backed (start Mempool.new) submittedStem := by
    decide +kernel
  refine ⟨by decide +kernel, ?_⟩
  rw [relayRun]
  exact announced_held hguarded

/-- The same with a transaction of a peer, which the node has never offered to its own mempool. -/
def forwardedStem : List (RelayOp crypto) :=
  [.stemTx relayed, .run 0 (.stem true), .run 0 (.stem true), .run 0 (.stem true), .timeout 0,
    .run 0 .fluff]

theorem forwardedStem_not_held : ¬ AnnouncedHeld (relayRun forwardedStem).shared.log := by
  have hlog : (relayRun forwardedStem).shared.log.length = 1 ∧
      announced (relayRun forwardedStem).shared.log = [relayed] := by
    decide +kernel
  obtain ⟨hlength, hannounced⟩ := hlog
  obtain ⟨e, he⟩ := List.length_eq_one_iff.mp hlength
  rw [he] at hannounced ⊢
  cases e with
  | offered tx => cases hannounced
  | announced tx =>
      intro hheld
      cases hheld [] tx [] rfl

/-- The same transaction arrives twice, one time after the other. -/
theorem fluffed_once :
    Guarded (step serializedSize openingBytes) (Apart openingBytes) (start Mempool.new)
        (fluffAlone relayed ++ fluffAlone relayed) ∧
      announced (relayRun (fluffAlone relayed ++ fluffAlone relayed)).shared.log = [relayed] ∧
      (announced (relayRun (fluffAlone relayed ++ fluffAlone relayed)).shared.log).Nodup := by
  have hrun : Guarded (step serializedSize openingBytes) (Apart openingBytes) (start Mempool.new)
        (fluffAlone relayed ++ fluffAlone relayed) ∧
      announced (relayRun (fluffAlone relayed ++ fluffAlone relayed)).shared.log = [relayed] := by
    decide +kernel
  refine ⟨hrun.1, hrun.2, ?_⟩
  rw [relayRun]
  exact announced_once hrun.1

/-- It arrives on two connections at once: both ask before either marks. -/
def fluffedTogether : List (RelayOp crypto) :=
  [.fluffTx relayed, .fluffTx relayed, .run 0 .fluff, .run 0 .fluff, .run 0 .fluff, .run 0 .fluff,
    .run 0 .fluff, .run 0 .fluff, .run 0 .fluff, .run 0 .fluff]

theorem fluffedTogether_twice :
    announced (relayRun fluffedTogether).shared.log = [relayed, relayed] ∧
      ¬ (announced (relayRun fluffedTogether).shared.log).Nodup := by
  decide +kernel

end Devnet

end Haze
