import Haze.Lib.KeyedMap
import Mathlib.Data.Fintype.EquivFin

/-!
# The peers of a node (`p2p/src/server.rs`)

A node has a table of the writers of its connections, by address, and an address book. Each connection is
a task of its own, started by the accept loop, for a seed of the command line, or for an address that a
peer has sent. It enters the table once it is set up, and takes its address out of it when it ends.

The cap on connections is looked up when a task is started, and the tasks that are on their way into the
table are not in the count. So the cap holds with one task at a time, and is exceeded by as many as are
on their way together (`peer_capacity`).

The table has one place for an address. A connection to an address that is connected already takes over
the place, and whichever of the two ends first leaves it empty (`peer_table`).

The lookups for one address of a list, and the start of its task, are one step here.
-/

namespace Haze

/-! ## The address book and the table

Two collections of addresses: the book, which only grows, and the table of connections, one for each
address. -/

/-- `MAX_PEERS`. -/
def maxPeers : ℕ := 50

/-- `MAX_PEERS_SHARED`. -/
def maxPeersShared : ℕ := 50

/-- Writers are told apart by the number of their connection. -/
structure PeerManager where
  peers : KeyedMap String ℕ
  knownPeers : Finset String

namespace PeerManager

def new : PeerManager := ⟨∅, ∅⟩

variable (pm : PeerManager) (addr : String)

def addPeer (writer : ℕ) : PeerManager := { pm with peers := pm.peers.insert addr writer }

def removePeer : PeerManager := { pm with peers := pm.peers.erase addr }

def isConnected : Bool := decide (addr ∈ pm.peers)

def connectionCount : ℕ := pm.peers.keys.card

def addKnownPeer : PeerManager := { pm with knownPeers := insert addr pm.knownPeers }

/-- `known_peers_snapshot`; the hash set yields its addresses in some order. -/
def knownPeersSnapshot (order : List String) : List String := order.take maxPeersShared

end PeerManager

/-! ## A node's connections

A connection is set up in several steps, each under its own lock of the manager: accepted or dialed, then
entered into the table, then read from until it ends. The steps of different connections can interleave. -/

/-- A connection on its way into the table: it has to be dialed first, or only to be entered. -/
inductive Attempt where
  | dialing (addr : String)
  | ready (addr : String)
  deriving DecidableEq

def Attempt.addr : Attempt → String
  | .dialing addr => addr
  | .ready addr => addr

structure PeerNode where
  ownListenAddr : String
  manager : PeerManager
  attempts : List Attempt
  /-- The connections whose messages are read, with their numbers. -/
  live : List (ℕ × String)
  /-- How many there have been. -/
  opened : ℕ

/-- Tasks are given by their places. -/
inductive PeerEvent where
  /-- The listener accepts a connection. -/
  | accept (addr : String)
  /-- A `Handshake` arrives. -/
  | handshake (listenAddr : String)
  /-- An address of a `PeersList` comes up. -/
  | candidate (addr : String)
  /-- The peer has been reached. -/
  | connected (i : ℕ)
  /-- The connection is set up. -/
  | register (i : ℕ)
  /-- The peer cannot be reached, or the handshake cannot be sent. -/
  | fail (i : ℕ)
  /-- The connection ends. -/
  | close (i : ℕ)

namespace PeerNode

/-- `start` dials the seeds. -/
def start (ownListenAddr : String) (seedPeers : List String) : PeerNode :=
  ⟨ownListenAddr, .new, seedPeers.map .dialing, [], 0⟩

def step (n : PeerNode) : PeerEvent → PeerNode
  | .accept addr =>
      if n.manager.connectionCount ≥ maxPeers then n
      else { n with attempts := n.attempts ++ [.ready addr] }
  | .handshake listenAddr => { n with manager := n.manager.addKnownPeer listenAddr }
  | .candidate addr =>
      if addr = n.ownListenAddr || n.manager.isConnected addr then n
      else if n.manager.connectionCount ≥ maxPeers then
        { n with manager := n.manager.addKnownPeer addr }
      else
        { n with
          manager := n.manager.addKnownPeer addr
          attempts := n.attempts ++ [.dialing addr] }
  | .connected i =>
      match n.attempts[i]? with
      | some (.dialing addr) =>
          { n with
            manager := n.manager.addKnownPeer addr
            attempts := n.attempts.set i (.ready addr) }
      | _ => n
  | .register i =>
      match n.attempts[i]? with
      | some (.ready addr) =>
          { n with
            manager := n.manager.addPeer addr n.opened
            attempts := n.attempts.eraseIdx i
            live := (n.opened, addr) :: n.live
            opened := n.opened + 1 }
      | _ => n
  | .fail i => { n with attempts := n.attempts.eraseIdx i }
  | .close i =>
      match n.live[i]? with
      | some (_, addr) => { n with manager := n.manager.removePeer addr, live := n.live.eraseIdx i }
      | none => n

def run (n : PeerNode) (events : List PeerEvent) : PeerNode := events.foldl step n

/-! ## The cap

Whether there is room is asked before a connection is set up, and not again when it is entered. The
connections on their way come on top of the cap. -/

/-- There are never more than `k` on their way. -/
def Within (k : ℕ) : PeerNode → List PeerEvent → Prop
  | n, [] => n.attempts.length ≤ k
  | n, ev :: events => n.attempts.length ≤ k ∧ Within k (n.step ev) events

variable {n : PeerNode} {k : ℕ} {ev : PeerEvent} {events events' : List PeerEvent}

theorem Within.head (h : Within k n events) : n.attempts.length ≤ k := by
  cases events with
  | nil => exact h
  | cons ev events => exact h.1

theorem within_append (h : Within k n events) (h' : Within k (n.run events) events') :
    Within k n (events ++ events') := by
  induction events generalizing n with
  | nil => exact h'
  | cons ev events ih => exact ⟨h.1, ih h.2 h'⟩

theorem connectionCount_addPeer_le (pm : PeerManager) (addr : String) (writer : ℕ) :
    (pm.addPeer addr writer).connectionCount ≤ pm.connectionCount + 1 := by
  rw [PeerManager.connectionCount, PeerManager.addPeer, KeyedMap.keys_insert]
  exact Finset.card_insert_le addr pm.peers.keys

theorem connectionCount_removePeer_le (pm : PeerManager) (addr : String) :
    (pm.removePeer addr).connectionCount ≤ pm.connectionCount := by
  rw [PeerManager.connectionCount, PeerManager.removePeer, Finmap.keys_erase]
  exact Finset.card_erase_le

/-- The connections, with those on their way, do not exceed the cap by more than those on their way. -/
theorem step_capacity (h : n.manager.connectionCount + n.attempts.length ≤ maxPeers - 1 + k)
    (hwithin : (n.step ev).attempts.length ≤ k) :
    (n.step ev).manager.connectionCount + (n.step ev).attempts.length ≤ maxPeers - 1 + k := by
  have hcap : maxPeers = 50 := rfl
  cases ev with
  | accept addr =>
      simp only [step] at hwithin ⊢
      split at hwithin
      -- full: the connection is dropped before it is set up
      next hfull =>
        rw [if_pos hfull]
        exact h
      next hroom =>
        rw [if_neg hroom]
        dsimp only at hwithin ⊢
        omega
  | handshake listenAddr => exact h
  | candidate addr =>
      simp only [step] at hwithin ⊢
      split
      · exact h
      next hnew =>
        rw [if_neg hnew] at hwithin
        split
        · exact h
        next hroom =>
          rw [if_neg hroom] at hwithin
          have hsame : (n.manager.addKnownPeer addr).connectionCount = n.manager.connectionCount := rfl
          dsimp only at hwithin ⊢
          omega
  | connected i =>
      -- reached, but not entered into the table yet
      simp only [step]
      split
      next addr _ =>
        have hsame : (n.manager.addKnownPeer addr).connectionCount = n.manager.connectionCount := rfl
        rw [List.length_set, hsame]
        exact h
      · exact h
  | register i =>
      simp only [step]
      split
      next addr hi =>
        have hle := connectionCount_addPeer_le n.manager addr n.opened
        have hlt := (List.getElem?_eq_some_iff.mp hi).1
        rw [List.length_eraseIdx_of_lt hlt]
        dsimp only
        omega
      · exact h
  | fail i =>
      have hle : (n.attempts.eraseIdx i).length ≤ n.attempts.length := List.length_eraseIdx_le ..
      show n.manager.connectionCount + (n.attempts.eraseIdx i).length ≤ _
      omega
  | close i =>
      simp only [step]
      split
      next id addr _ =>
        have hle := connectionCount_removePeer_le n.manager addr
        dsimp only
        omega
      · exact h

theorem run_capacity (h : n.manager.connectionCount + n.attempts.length ≤ maxPeers - 1 + k)
    (hwithin : Within k n events) :
    (n.run events).manager.connectionCount + (n.run events).attempts.length ≤ maxPeers - 1 + k := by
  induction events generalizing n with
  | nil => exact h
  | cons ev events ih => exact ih (step_capacity h hwithin.2.head) hwithin.2

/-! ### A crowd at the door -/

/-- While there is room all are let in. -/
theorem run_accepts (hroom : n.manager.connectionCount < maxPeers) (addrs : List String) :
    n.run (addrs.map .accept) = { n with attempts := n.attempts ++ addrs.map .ready } := by
  induction addrs generalizing n with
  | nil => simp [run]
  | cons addr addrs ih =>
      have hstep : n.step (.accept addr) = { n with attempts := n.attempts ++ [.ready addr] } := by
        rw [step, if_neg (Nat.not_le.mpr hroom)]
      rw [List.map_cons, run, List.foldl_cons, hstep]
      have hrest := ih (n := { n with attempts := n.attempts ++ [.ready addr] }) hroom
      rw [run] at hrest
      rw [hrest]
      simp

theorem within_accepts (hroom : n.manager.connectionCount < maxPeers) (addrs : List String)
    (hk : n.attempts.length + addrs.length ≤ k) : Within k n (addrs.map .accept) := by
  induction addrs generalizing n with
  | nil => exact Nat.le_of_add_right_le hk
  | cons addr addrs ih =>
      rw [List.length_cons] at hk
      refine ⟨by omega, ?_⟩
      have hstep : n.step (.accept addr) = { n with attempts := n.attempts ++ [.ready addr] } := by
        rw [step, if_neg (Nat.not_le.mpr hroom)]
      rw [hstep]
      refine ih (n := { n with attempts := n.attempts ++ [.ready addr] }) hroom ?_
      dsimp only
      rw [List.length_append, List.length_singleton]
      omega

/-- All enter the table, one after the other. -/
theorem run_registers {addrs : List String} (hready : n.attempts = addrs.map .ready) :
    (n.run (addrs.map fun _ => .register 0)).attempts = [] ∧
      (n.run (addrs.map fun _ => .register 0)).manager.peers.keys = n.manager.peers.keys ∪ addrs.toFinset := by
  induction addrs generalizing n with
  | nil => exact ⟨hready, by simp [run]⟩
  | cons addr addrs ih =>
      have hstep : n.step (.register 0) =
          { n with
            manager := n.manager.addPeer addr n.opened
            attempts := addrs.map .ready
            live := (n.opened, addr) :: n.live
            opened := n.opened + 1 } := by
        simp [step, hready]
      have hrest := ih (n := n.step (.register 0)) (by rw [hstep])
      rw [List.map_cons, run, List.foldl_cons]
      refine ⟨hrest.1, hrest.2.trans ?_⟩
      rw [hstep, PeerManager.addPeer, KeyedMap.keys_insert]
      ext x
      simp [or_comm]

theorem within_registers {addrs : List String} (hready : n.attempts = addrs.map .ready)
    (hk : addrs.length ≤ k) : Within k n (addrs.map fun _ => .register 0) := by
  induction addrs generalizing n with
  | nil =>
      rw [List.map_nil] at hready ⊢
      simp [Within, hready]
  | cons addr addrs ih =>
      refine ⟨by rw [hready, List.length_map]; exact hk, ?_⟩
      apply ih
      · simp [step, hready]
      · exact Nat.le_of_succ_le hk

/-- The addresses in the table, with a crowd of `addrs` let in together. -/
theorem exists_crowd (addrs : List String) (hidle : n.attempts = [])
    (hroom : n.manager.connectionCount < maxPeers) (hk : addrs.length ≤ k) :
    ∃ events, Within k n events ∧ (n.run events).attempts = [] ∧
      (n.run events).manager.peers.keys = n.manager.peers.keys ∪ addrs.toFinset := by
  have haccepted := run_accepts hroom addrs
  rw [hidle, List.nil_append] at haccepted
  have hready : (n.run (addrs.map .accept)).attempts = addrs.map .ready := by rw [haccepted]
  obtain ⟨hdone, hkeys⟩ := run_registers hready
  refine ⟨addrs.map .accept ++ addrs.map (fun _ => .register 0), ?_, ?_, ?_⟩
  · refine within_append (within_accepts hroom addrs ?_) (within_registers hready hk)
    rw [hidle, List.length_nil, Nat.zero_add]
    exact hk
  · rw [run, List.foldl_append]
    exact hdone
  · rw [run, List.foldl_append]
    refine hkeys.trans ?_
    rw [haccepted]

/-- One after the other, connections fill the table up to the last place but one. -/
theorem exists_filled (own : String) (hk : 1 ≤ k) {addrs : List String} (hnodup : addrs.Nodup)
    (hlength : addrs.length < maxPeers) :
    ∃ events, Within k (start own []) events ∧ ((start own []).run events).attempts = [] ∧
      ((start own []).run events).manager.peers.keys = addrs.toFinset := by
  induction addrs with
  | nil => exact ⟨[], by simp [Within, start], rfl, rfl⟩
  | cons addr addrs ih =>
      obtain ⟨events, hwithin, hidle, hkeys⟩ := ih hnodup.of_cons (Nat.lt_of_succ_lt hlength)
      have hroom : ((start own []).run events).manager.connectionCount < maxPeers := by
        rw [PeerManager.connectionCount, hkeys, List.toFinset_card_of_nodup hnodup.of_cons]
        exact Nat.lt_of_succ_lt hlength
      obtain ⟨crowd, hwithin', hidle', hkeys'⟩ := exists_crowd [addr] hidle hroom hk
      refine ⟨events ++ crowd, within_append hwithin hwithin', ?_, ?_⟩
      · rw [run, List.foldl_append]
        exact hidle'
      · rw [run, List.foldl_append]
        refine hkeys'.trans ?_
        rw [hkeys]
        ext x
        simp

/-- **The cap on connections.** As long as no more than `k + 1` are on their way together, the table holds
at most `k` connections beyond the cap, and it comes to hold as many. -/
theorem peer_capacity (own : String) (k : ℕ) :
    (∀ seeds events, Within (k + 1) (start own seeds) events →
        ((start own seeds).run events).manager.connectionCount ≤ maxPeers + k) ∧
      ∃ events, Within (k + 1) (start own []) events ∧
        ((start own []).run events).manager.connectionCount = maxPeers + k := by
  have hcap : maxPeers = 50 := rfl
  refine ⟨fun seeds events hwithin => ?_, ?_⟩
  · have hempty : (start own seeds).manager.connectionCount = 0 := rfl
    have hhead := hwithin.head
    have hrun := run_capacity (n := start own seeds) (by omega) hwithin
    omega
  · -- 49 one after the other, and then the rest together
    have : Infinite String := Infinite.of_injective String.ofList fun _ _ => String.ofList_injective
    obtain ⟨addrs, hcard⟩ := Infinite.exists_subset_card_eq String (maxPeers + k)
    have hnodup := addrs.nodup_toList
    have hlength : addrs.toList.length = maxPeers + k := addrs.length_toList.trans hcard
    obtain ⟨events, hwithin, hidle, hkeys⟩ := exists_filled own (Nat.le_add_left 1 k)
      (hnodup.sublist (List.take_sublist (maxPeers - 1) _)) (by rw [List.length_take]; omega)
    have hroom : ((start own []).run events).manager.connectionCount < maxPeers := by
      rw [PeerManager.connectionCount, hkeys]
      refine (List.toFinset_card_le _).trans_lt ?_
      rw [List.length_take]
      omega
    obtain ⟨crowd, hwithin', -, hkeys'⟩ := exists_crowd (k := k + 1)
      (addrs.toList.drop (maxPeers - 1)) hidle hroom (by rw [List.length_drop]; omega)
    refine ⟨events ++ crowd, within_append hwithin hwithin', ?_⟩
    have hall : ((start own []).run (events ++ crowd)).manager.peers.keys = addrs := by
      rw [run, List.foldl_append]
      refine hkeys'.trans ?_
      rw [hkeys, ← List.toFinset_append, List.take_append_drop, Finset.toList_toFinset]
    rw [PeerManager.connectionCount, hall, hcard]

/-! ## The table and the address book

A table entry can be lost while its connection lives on: a second connection of the same address takes the
entry over, and when that one ends, it removes the entry. `Displaces` names both. -/

/-- The numbers of the connections are their own, and the table has no others. -/
structure Sound (n : PeerNode) : Prop where
  registered : ∀ addr id, n.manager.peers.lookup addr = some id → (id, addr) ∈ n.live
  numbered : ∀ p ∈ n.live, p.1 < n.opened
  distinct : (n.live.map Prod.fst).Nodup

/-- Another connection with its address takes the place of a live one, or takes it along. -/
inductive Displaces (n : PeerNode) : PeerEvent → ℕ → String → Prop
  | register {i id : ℕ} {addr : String} (hlive : (id, addr) ∈ n.live)
      (hready : n.attempts[i]? = some (.ready addr)) : Displaces n (.register i) id addr
  | close {i id id' : ℕ} {addr : String} (hlive : (id, addr) ∈ n.live)
      (hends : n.live[i]? = some (id', addr)) (hother : id' ≠ id) : Displaces n (.close i) id addr

/-- What a step does to the table and the connections: nothing, or one is entered, or one ends. -/
theorem step_cases (n : PeerNode) (ev : PeerEvent) :
    ((n.step ev).manager.peers = n.manager.peers ∧ (n.step ev).live = n.live ∧
        (n.step ev).opened = n.opened) ∨
      (∃ i addr, ev = .register i ∧ n.attempts[i]? = some (.ready addr) ∧
        (n.step ev).manager.peers = n.manager.peers.insert addr n.opened ∧
        (n.step ev).live = (n.opened, addr) :: n.live ∧ (n.step ev).opened = n.opened + 1) ∨
      ∃ i id addr, ev = .close i ∧ n.live[i]? = some (id, addr) ∧
        (n.step ev).manager.peers = n.manager.peers.erase addr ∧
        (n.step ev).live = n.live.eraseIdx i ∧ (n.step ev).opened = n.opened := by
  cases ev with
  | accept addr =>
      refine .inl ?_
      simp only [step]
      split <;> exact ⟨rfl, rfl, rfl⟩
  | handshake listenAddr => exact .inl ⟨rfl, rfl, rfl⟩
  | candidate addr =>
      refine .inl ?_
      simp only [step]
      split
      · exact ⟨rfl, rfl, rfl⟩
      · split <;> exact ⟨rfl, rfl, rfl⟩
  | connected i =>
      refine .inl ?_
      simp only [step]
      split <;> exact ⟨rfl, rfl, rfl⟩
  | register i =>
      cases hi : n.attempts[i]? with
      | none => exact .inl (by simp only [step, hi, and_self])
      | some attempt =>
          cases attempt with
          | dialing addr => exact .inl (by simp only [step, hi, and_self])
          | ready addr =>
              exact .inr (.inl ⟨i, addr, rfl, hi, by simp only [step, hi, PeerManager.addPeer, and_self]⟩)
  | fail i => exact .inl ⟨rfl, rfl, rfl⟩
  | close i =>
      cases hi : n.live[i]? with
      | none => exact .inl (by simp only [step, hi, and_self])
      | some p =>
          exact .inr (.inr ⟨i, p.1, p.2, rfl, hi, by simp only [step, hi, PeerManager.removePeer, and_self]⟩)

/-- When a connection ends, the others go on. -/
theorem Sound.mem_eraseIdx (h : Sound n) {i id id' : ℕ} {addr addr' : String}
    (hi : n.live[i]? = some (id, addr)) :
    (id', addr') ∈ n.live.eraseIdx i ↔ (id', addr') ∈ n.live ∧ id' ≠ id := by
  rw [List.mem_eraseIdx_iff_getElem?]
  constructor
  · rintro ⟨j, hne, hj⟩
    refine ⟨List.mem_of_getElem? hj, ?_⟩
    rintro rfl
    have hlt : j < (n.live.map Prod.fst).length := by
      rw [List.length_map]
      exact (List.getElem?_eq_some_iff.mp hj).1
    apply hne
    apply (List.getElem?_inj hlt h.distinct).mp
    rw [List.getElem?_map, List.getElem?_map, hj, hi]
    rfl
  · rintro ⟨hmem, hne⟩
    obtain ⟨j, hj⟩ := List.mem_iff_getElem?.mp hmem
    refine ⟨j, ?_, hj⟩
    rintro rfl
    exact hne (Prod.mk.inj (Option.some.inj (hj.symm.trans hi))).1

theorem Sound.step (h : Sound n) (ev : PeerEvent) : Sound (n.step ev) := by
  rcases step_cases n ev with ⟨hpeers, hlive, hopened⟩ | ⟨i, addr, -, -, hpeers, hlive, hopened⟩ |
    ⟨i, id, addr, -, hi, hpeers, hlive, hopened⟩
  · refine ⟨?_, ?_, ?_⟩
    · rw [hpeers, hlive]
      exact h.registered
    · rw [hlive, hopened]
      exact h.numbered
    · rw [hlive]
      exact h.distinct
  -- a connection is entered: its number is new, and it replaces what the address had
  · refine ⟨?_, ?_, ?_⟩
    · rw [hpeers, hlive]
      intro addr' id' hlookup
      by_cases hsame : addr' = addr
      · subst hsame
        rw [Finmap.lookup_insert] at hlookup
        rw [Option.some.inj hlookup]
        exact List.mem_cons_self
      · rw [Finmap.lookup_insert_of_ne _ hsame] at hlookup
        exact List.mem_cons_of_mem _ (h.registered addr' id' hlookup)
    · rw [hlive, hopened, List.forall_mem_cons]
      exact ⟨Nat.lt_succ_self _, fun p hp => Nat.lt_succ_of_lt (h.numbered p hp)⟩
    · rw [hlive, List.map_cons, List.nodup_cons]
      refine ⟨fun hmem => ?_, h.distinct⟩
      obtain ⟨p, hp, hid⟩ := List.mem_map.mp hmem
      exact (h.numbered p hp).ne hid
  -- a connection ends: its address goes from the table, whichever connection the entry was for
  · refine ⟨?_, ?_, ?_⟩
    · rw [hpeers, hlive]
      intro addr' id' hlookup
      have hne : addr' ≠ addr := by
        rintro rfl
        rw [Finmap.lookup_erase] at hlookup
        cases hlookup
      rw [Finmap.lookup_erase_ne hne] at hlookup
      have hmem := h.registered addr' id' hlookup
      refine (h.mem_eraseIdx hi).mpr ⟨hmem, ?_⟩
      rintro rfl
      exact hne (Prod.mk.inj (List.inj_on_of_nodup_map h.distinct hmem (List.mem_of_getElem? hi) rfl)).2
    · rw [hlive, hopened]
      exact fun p hp => h.numbered p (List.mem_of_mem_eraseIdx hp)
    · rw [hlive]
      exact h.distinct.sublist ((List.eraseIdx_sublist _ _).map _)

/-- A live connection that has its place keeps it, until it is displaced. -/
theorem Sound.step_live (h : Sound n) {id : ℕ} {addr : String} (hlive : (id, addr) ∈ (n.step ev).live) :
    (n.step ev).manager.peers.lookup addr = some id ∨ Displaces n ev id addr ∨
      (id, addr) ∈ n.live ∧ n.manager.peers.lookup addr ≠ some id := by
  by_cases hbefore : (id, addr) ∈ n.live ∧ n.manager.peers.lookup addr ≠ some id
  · exact .inr (.inr hbefore)
  rw [not_and, not_not] at hbefore
  rcases step_cases n ev with ⟨hpeers, hsame, -⟩ | ⟨i, addr', rfl, hready, hpeers, hopen, -⟩ |
    ⟨i, id', addr', rfl, hi, hpeers, hrest, -⟩
  · rw [hsame] at hlive
    rw [hpeers]
    exact .inl (hbefore hlive)
  · rw [hopen, List.mem_cons] at hlive
    rw [hpeers]
    rcases hlive with hnew | hlive
    · obtain ⟨rfl, rfl⟩ := Prod.mk.inj hnew
      exact .inl (Finmap.lookup_insert _)
    · by_cases hsame : addr = addr'
      · subst hsame
        exact .inr (.inl (.register hlive hready))
      · rw [Finmap.lookup_insert_of_ne _ hsame]
        exact .inl (hbefore hlive)
  · rw [hrest, h.mem_eraseIdx hi] at hlive
    obtain ⟨hlive, hne⟩ := hlive
    rw [hpeers]
    by_cases hsame : addr = addr'
    · subst hsame
      exact .inr (.inl (.close hlive hi hne.symm))
    · rw [Finmap.lookup_erase_ne hsame]
      exact .inl (hbefore hlive)

/-- The address came with a seed, in a handshake, or in a list, and then it is not the node's own. -/
def Heard (own : String) (seeds : List String) (events : List PeerEvent) (addr : String) : Prop :=
  addr ∈ seeds ∨ .handshake addr ∈ events ∨ .candidate addr ∈ events ∧ addr ≠ own

/-- The node knows and dials what it has heard of. -/
structure Informed (own : String) (seeds : List String) (events : List PeerEvent) (n : PeerNode) : Prop where
  self : n.ownListenAddr = own
  known : ∀ addr ∈ n.manager.knownPeers, Heard own seeds events addr
  dialed : ∀ addr, .dialing addr ∈ n.attempts → Heard own seeds events addr

theorem Informed.step {own : String} {seeds : List String} (h : Informed own seeds events n)
    (ev : PeerEvent) : Informed own seeds (events ++ [ev]) (n.step ev) := by
  -- what was heard of before is heard of still
  have hmono : ∀ addr, Heard own seeds events addr → Heard own seeds (events ++ [ev]) addr := by
    rintro addr (hseed | hshake | ⟨hcandidate, hne⟩)
    · exact .inl hseed
    · exact .inr (.inl (List.mem_append_left _ hshake))
    · exact .inr (.inr ⟨List.mem_append_left _ hcandidate, hne⟩)
  have hlast : ev ∈ events ++ [ev] := List.mem_append_right _ (List.mem_singleton_self ev)
  have hknown : ∀ addr ∈ n.manager.knownPeers, Heard own seeds (events ++ [ev]) addr :=
    fun addr haddr => hmono addr (h.known addr haddr)
  have hdialed : ∀ addr, .dialing addr ∈ n.attempts → Heard own seeds (events ++ [ev]) addr :=
    fun addr haddr => hmono addr (h.dialed addr haddr)
  have hinsert : ∀ addr, Heard own seeds (events ++ [ev]) addr →
      ∀ a ∈ (n.manager.addKnownPeer addr).knownPeers, Heard own seeds (events ++ [ev]) a := by
    intro addr haddr
    exact (Finset.forall_mem_insert _ _ _).mpr ⟨haddr, hknown⟩
  have hconcat : ∀ attempt : Attempt, (∀ addr, attempt = .dialing addr →
      Heard own seeds (events ++ [ev]) addr) → ∀ addr, .dialing addr ∈ n.attempts ++ [attempt] →
        Heard own seeds (events ++ [ev]) addr := by
    intro attempt hattempt addr hmem
    rcases List.mem_append.mp hmem with hold | hnew
    · exact hdialed addr hold
    · exact hattempt addr (List.mem_singleton.mp hnew).symm
  cases ev with
  | accept addr =>
      simp only [PeerNode.step]
      split
      · exact ⟨h.self, hknown, hdialed⟩
      · exact ⟨h.self, hknown, hconcat _ nofun⟩
  | handshake listenAddr => exact ⟨h.self, hinsert _ (.inr (.inl hlast)), hdialed⟩
  | candidate addr =>
      simp only [PeerNode.step]
      split
      · exact ⟨h.self, hknown, hdialed⟩
      next hnew =>
        rw [Bool.or_eq_true, not_or, decide_eq_true_eq, h.self] at hnew
        have hheard : Heard own seeds (events ++ [.candidate addr]) addr := .inr (.inr ⟨hlast, hnew.1⟩)
        split
        · exact ⟨h.self, hinsert _ hheard, hdialed⟩
        · refine ⟨h.self, hinsert _ hheard, hconcat _ ?_⟩
          intro addr' heq
          rw [← Attempt.dialing.inj heq]
          exact hheard
  | connected i =>
      simp only [PeerNode.step]
      split
      next addr hi =>
        refine ⟨h.self, hinsert _ (hdialed addr (List.mem_of_getElem? hi)), fun addr' hmem => ?_⟩
        rcases List.mem_or_eq_of_mem_set hmem with hold | hnew
        · exact hdialed addr' hold
        · cases hnew
      · exact ⟨h.self, hknown, hdialed⟩
  | register i =>
      simp only [PeerNode.step]
      split
      · exact ⟨h.self, hknown, fun addr hmem => hdialed addr (List.mem_of_mem_eraseIdx hmem)⟩
      · exact ⟨h.self, hknown, hdialed⟩
  | fail i => exact ⟨h.self, hknown, fun addr hmem => hdialed addr (List.mem_of_mem_eraseIdx hmem)⟩
  | close i =>
      simp only [PeerNode.step]
      split
      · exact ⟨h.self, hknown, hdialed⟩
      · exact ⟨h.self, hknown, hdialed⟩

/-- **The table and the address book**, after any events. The table has live connections only; a live one
is missing only if another with its address has displaced it; and what a node tells of are addresses that
it has heard of, and has not taken from a list if they are its own. -/
theorem peer_table (own : String) (seeds : List String) (events : List PeerEvent) :
    let n := (start own seeds).run events
    (∀ addr id, n.manager.peers.lookup addr = some id → (id, addr) ∈ n.live) ∧
      (∀ id addr, (id, addr) ∈ n.live → n.manager.peers.lookup addr = some id ∨
        ∃ before ev after, events = before ++ ev :: after ∧
          Displaces ((start own seeds).run before) ev id addr) ∧
      ∀ order, order.toFinset = n.manager.knownPeers →
        ∀ addr ∈ PeerManager.knownPeersSnapshot order, Heard own seeds events addr := by
  have hrun : Sound ((start own seeds).run events) ∧
      Informed own seeds events ((start own seeds).run events) ∧
      ∀ id addr, (id, addr) ∈ ((start own seeds).run events).live →
        ((start own seeds).run events).manager.peers.lookup addr = some id ∨
          ∃ before ev after, events = before ++ ev :: after ∧
            Displaces ((start own seeds).run before) ev id addr := by
    induction events using List.reverseRecOn with
    | nil =>
        refine ⟨⟨?_, nofun, List.nodup_nil⟩, ⟨rfl, nofun, ?_⟩, nofun⟩
        · intro addr id hlookup
          rw [run, List.foldl_nil, start, PeerManager.new, Finmap.lookup_empty] at hlookup
          cases hlookup
        · intro addr hmem
          obtain ⟨seed, hseed, heq⟩ := List.mem_map.mp hmem
          cases heq
          exact .inl hseed
    -- the last event; what it displaces was in the table before
    | append_singleton events ev ih =>
        obtain ⟨hsound, hinformed, hlive⟩ := ih
        have hstep : (start own seeds).run (events ++ [ev]) = ((start own seeds).run events).step ev := by
          rw [run, List.foldl_append]
          rfl
        rw [hstep]
        refine ⟨hsound.step ev, hinformed.step ev, fun id addr hmem => ?_⟩
        rcases hsound.step_live hmem with hplaced | hdisplaced | ⟨hmem, hmissing⟩
        · exact .inl hplaced
        · exact .inr ⟨events, ev, [], rfl, hdisplaced⟩
        · obtain ⟨before, ev', after, rfl, hdisplaced⟩ := (hlive id addr hmem).resolve_left hmissing
          exact .inr ⟨before, ev', after ++ [ev], by simp, hdisplaced⟩
  obtain ⟨hsound, hinformed, hlive⟩ := hrun
  refine ⟨hsound.registered, hlive, ?_⟩
  intro order horder addr haddr
  refine hinformed.known addr ?_
  rw [← horder, List.mem_toFinset]
  exact List.mem_of_mem_take haddr

end PeerNode

end Haze
