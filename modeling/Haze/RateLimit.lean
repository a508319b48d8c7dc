import Haze.Lib.KeyedMap
import Haze.Lib.Window

/-!
# Requests per address (`api/src/ratelimit.rs`)

The limiter remembers for every address when it was let through. One map serves all addresses, and when it
has grown large a request drops the entries that have gone quiet, whoever they belong to. An entry goes
only when it would count nothing any more, so each address sees a sliding window of its own
(`Window.serve`).

Instants are numbers of nanoseconds. `Instant::duration_since` saturates, as subtraction does here.
-/

namespace Haze

/-- `std::net::IpAddr`. -/
inductive IpAddr where
  | v4 (octets : BitVec 32)
  | v6 (octets : BitVec 128)
  deriving DecidableEq

def maxRequestsPerWindow : ℕ := 120

/-- `WINDOW`: ten seconds. -/
def requestWindow : ℕ := 10 * 10 ^ 9

/-- How many addresses the map may hold before a request drops quiet ones. -/
def maxQuietEntries : ℕ := 10000

structure RateLimiter where
  hits : KeyedMap IpAddr (List ℕ)

/-- A call of `check`: the clock and the address. -/
structure Request where
  now : ℕ
  ip : IpAddr
  deriving DecidableEq

namespace RateLimiter

open Window

/-- `RateLimiter::new`. -/
def new : RateLimiter := ⟨∅⟩

variable (l : RateLimiter) (now : ℕ) (ip : IpAddr)

-- the first `retain` of `check`
def dropQuiet : KeyedMap IpAddr (List ℕ) :=
  if l.hits.keys.card > maxQuietEntries then
    l.hits.retainValues fun times => times.getLast?.any fun t => decide (now - t < requestWindow)
  else l.hits

def check : Bool × RateLimiter :=
  let hits := l.dropQuiet now
  let times := ((hits.lookup ip).getD []).filter fun t => decide (now - t < requestWindow)
  if times.length ≥ maxRequestsPerWindow then (false, ⟨hits.insert ip times⟩)
  else (true, ⟨hits.insert ip (times ++ [now])⟩)

/-- The calls of a run, each with its answer. -/
def serve : RateLimiter → List Request → List (Request × Bool)
  | _, [] => []
  | l, r :: rs => (r, (l.check r.now r.ip).1) :: serve (l.check r.now r.ip).2 rs

/-! ## One address

The limiter keeps the times of each address that it still needs. An address that has been quiet for a while
is dropped, which no later request can tell. -/

/-- What is remembered of an address. -/
def times : List ℕ :=
  (l.hits.lookup ip).getD []

/-- What is left of an address when the quiet entries are dropped. -/
def remaining : List ℕ :=
  ((l.dropQuiet now).lookup ip).getD []

/-- Every entry holds ascending times, none of them in the future. -/
structure Ordered : Prop where
  sorted : ∀ ip, (l.times ip).Pairwise (· ≤ ·)
  past : ∀ ip, ∀ t ∈ l.times ip, t ≤ now

theorem Ordered.new : Ordered new now :=
  ⟨fun _ => List.Pairwise.nil, fun _ _ h => absurd h List.not_mem_nil⟩

variable {l now ip}

theorem Ordered.mono {now' : ℕ} (h : l.Ordered now) (hle : now ≤ now') : l.Ordered now' :=
  ⟨h.sorted, fun ip t ht => (h.past ip t ht).trans hle⟩

/-- Dropping quiet entries leaves each address its entry, or nothing where nothing counts. -/
theorem remaining_cases (h : l.Ordered now) (ip : IpAddr) :
    l.remaining now ip = l.times ip ∨
      l.remaining now ip = [] ∧ Alike requestWindow now (l.times ip) [] := by
  unfold remaining dropQuiet
  split
  · rw [KeyedMap.lookup_retainValues]
    have hsorted := h.sorted ip
    unfold times at hsorted ⊢
    cases hlookup : l.hits.lookup ip with
    | none => exact .inl rfl
    | some times =>
        rw [hlookup] at hsorted
        rw [Option.filter_some]
        split
        · exact .inl rfl
        next hquiet => exact .inr ⟨rfl, alike_nil hsorted (Bool.not_eq_true _ ▸ hquiet)⟩
  · exact .inl rfl

theorem alike_remaining (h : l.Ordered now) (ip : IpAddr) :
    Alike requestWindow now (l.remaining now ip) (l.times ip) := by
  rcases remaining_cases h ip with hsame | ⟨hnil, halike⟩
  · rw [hsame]
    exact Alike.refl _ _ _
  · rw [hnil]
    exact halike.symm

/-- A call does to the entry of its address what the window does, and nothing to the others that are
left. -/
theorem check_eq (l : RateLimiter) (now : ℕ) (ip : IpAddr) :
    l.check now ip =
      let answer := accept requestWindow maxRequestsPerWindow (l.remaining now ip) now
      (answer.1, ⟨(l.dropQuiet now).insert ip answer.2⟩) := by
  unfold check accept recent remaining
  dsimp only
  split <;> rfl

theorem times_check_self (l : RateLimiter) (now : ℕ) (ip : IpAddr) :
    (l.check now ip).2.times ip =
      (accept requestWindow maxRequestsPerWindow (l.remaining now ip) now).2 := by
  rw [check_eq, times, Finmap.lookup_insert, Option.getD_some]

theorem times_check_of_ne {ip' : IpAddr} (hne : ip' ≠ ip) :
    (l.check now ip).2.times ip' = l.remaining now ip' := by
  rw [check_eq, times, Finmap.lookup_insert_of_ne _ hne]
  rfl

theorem Ordered.sublist_remaining (h : l.Ordered now) (ip : IpAddr) :
    (l.remaining now ip).Sublist (l.times ip) := by
  rcases remaining_cases h ip with hsame | ⟨hnil, -⟩
  · rw [hsame]
  · rw [hnil]
    exact List.nil_sublist _

theorem Ordered.check (h : l.Ordered now) (ip : IpAddr) : (l.check now ip).2.Ordered now := by
  have hentry : ∀ ip', ∃ kept, kept.Sublist (l.times ip') ∧
      ((l.check now ip).2.times ip' = kept ∨ (l.check now ip).2.times ip' = kept ++ [now]) := by
    intro ip'
    -- the address that asked may have its time pushed, the others only lose times
    by_cases hip : ip' = ip
    · subst hip
      refine ⟨recent requestWindow now (l.remaining now ip'),
        List.filter_sublist.trans (h.sublist_remaining ip'), ?_⟩
      rw [times_check_self, accept]
      split
      · exact .inl rfl
      · exact .inr rfl
    · exact ⟨_, h.sublist_remaining ip', .inl (times_check_of_ne hip)⟩
  constructor
  · intro ip'
    obtain ⟨kept, hsub, hsame | hpushed⟩ := hentry ip'
    · rw [hsame]
      exact (h.sorted ip').sublist hsub
    · rw [hpushed, List.pairwise_append]
      refine ⟨(h.sorted ip').sublist hsub, List.pairwise_singleton _ _, ?_⟩
      intro t ht n hn
      rw [List.mem_singleton.mp hn]
      exact h.past ip' t (hsub.subset ht)
  · intro ip' t ht
    obtain ⟨kept, hsub, hsame | hpushed⟩ := hentry ip'
    · rw [hsame] at ht
      exact h.past ip' t (hsub.subset ht)
    · rw [hpushed, List.mem_append, List.mem_singleton] at ht
      rcases ht with ht | rfl
      · exact h.past ip' t (hsub.subset ht)
      · exact Nat.le_refl _

/-! ## All addresses

A request of one address changes nothing for another. So what an address is answered among all others is
what it is answered alone. -/

/-- **Each address has a window of its own.** Of the answers, those to one address are what its window
gives on the times of its calls alone. -/
theorem serve_filter {rs : List Request} {kept : List ℕ} (ip : IpAddr)
    (hordered : ∀ r ∈ rs, l.Ordered r.now) (hsorted : rs.Pairwise fun r r' => r.now ≤ r'.now)
    (hkept : ∀ r ∈ rs, Alike requestWindow r.now (l.times ip) kept) :
    (serve l rs).filter (fun x => decide (x.1.ip = ip)) =
      (Window.serve requestWindow maxRequestsPerWindow kept
        ((rs.filter fun r => decide (r.ip = ip)).map Request.now)).map fun x => (⟨x.1, ip⟩, x.2) := by
  induction rs generalizing l kept with
  | nil => rfl
  | cons r rs ih =>
      rw [List.pairwise_cons] at hsorted
      have hr := hordered r List.mem_cons_self
      have halike := (alike_remaining hr ip).trans (hkept r List.mem_cons_self)
      have hordered' : ∀ r' ∈ rs, (l.check r.now r.ip).2.Ordered r'.now :=
        fun r' hr' => (hr.check r.ip).mono (hsorted.1 r' hr')
      rw [serve]
      -- a request of this address goes through its window, any other request leaves the window alone
      by_cases hip : r.ip = ip
      · subst hip
        rw [List.filter_cons_of_pos (by simp), List.filter_cons_of_pos (by simp), List.map_cons,
          Window.serve, List.map_cons]
        obtain ⟨hanswer, hafter⟩ := halike.accept
        congr 1
        · rw [check_eq, ← hanswer]
        · apply ih hordered' hsorted.2
          intro r' hr'
          rw [times_check_self]
          exact hafter.mono (hsorted.1 r' hr')
      · rw [List.filter_cons_of_neg (by simpa using hip), List.filter_cons_of_neg (by simpa using hip)]
        apply ih hordered' hsorted.2
        intro r' hr'
        rw [times_check_of_ne (Ne.symm hip)]
        exact halike.mono (hsorted.1 r' hr')

theorem serve_new_filter {rs : List Request} (hsorted : rs.Pairwise fun r r' => r.now ≤ r'.now)
    (ip : IpAddr) :
    (serve new rs).filter (fun x => decide (x.1.ip = ip)) =
      (Window.serve requestWindow maxRequestsPerWindow []
        ((rs.filter fun r => decide (r.ip = ip)).map Request.now)).map fun x => (⟨x.1, ip⟩, x.2) :=
  serve_filter ip (fun r _ => Ordered.new r.now) hsorted fun r _ => Alike.refl _ r.now []

theorem mem_of_mem_serve {rs : List Request} {x : Request × Bool} (h : x ∈ serve l rs) : x.1 ∈ rs := by
  induction rs generalizing l with
  | nil => cases h
  | cons r rs ih =>
      rw [serve] at h
      rcases List.mem_cons.mp h with rfl | h
      · exact List.mem_cons_self
      · exact List.mem_cons_of_mem r (ih h)

/-- **Requests are limited per address.** For calls at times that do not decrease, of those of one address
in any half-open window of ten seconds at most 120 are let through; and its answers are the ones it would
get if no other address had called. -/
theorem requests_limited {rs : List Request} (hsorted : rs.Pairwise fun r r' => r.now ≤ r'.now)
    (ip : IpAddr) :
    (∀ t, ((serve new rs).filter fun x =>
        decide (x.1.ip = ip ∧ x.2 = true ∧ t ≤ x.1.now ∧ x.1.now < t + requestWindow)).length ≤
      maxRequestsPerWindow) ∧
    (serve new rs).filter (fun x => decide (x.1.ip = ip)) =
      serve new (rs.filter fun r => decide (r.ip = ip)) := by
  have hown : (rs.filter fun r => decide (r.ip = ip)).Pairwise fun r r' => r.now ≤ r'.now :=
    hsorted.sublist List.filter_sublist
  constructor
  · intro t
    -- the times at which the address asked
    have hnows : ((rs.filter fun r => decide (r.ip = ip)).map Request.now).Pairwise (· ≤ ·) :=
      List.pairwise_map.mpr hown
    have hbound := during_admitted requestWindow maxRequestsPerWindow hnows t
    have hsplit : (serve new rs).filter (fun x =>
        decide (x.1.ip = ip ∧ x.2 = true ∧ t ≤ x.1.now ∧ x.1.now < t + requestWindow)) =
        ((serve new rs).filter fun x => decide (x.1.ip = ip)).filter fun x =>
          x.2 && decide (t ≤ x.1.now ∧ x.1.now < t + requestWindow) := by
      rw [List.filter_filter]
      apply List.filter_congr
      intro x _
      simp [Bool.and_comm]
    rw [hsplit, serve_new_filter hsorted, List.filter_map, List.length_map]
    rw [length_during_admitted] at hbound
    exact hbound
  · -- alone, the address has the same calls
    have halone := serve_new_filter hown ip
    simp only [List.filter_filter, Bool.and_self] at halone
    rw [serve_new_filter hsorted, ← halone, List.filter_eq_self]
    intro x hx
    exact (List.mem_filter.mp (mem_of_mem_serve hx)).2

/-- 121 calls at once from one address, then one from another, then one more from the first when the
window is over. -/
def flood : List Request :=
  List.replicate 121 ⟨0, .v4 1⟩ ++ [⟨5, .v4 2⟩, ⟨requestWindow, .v4 1⟩]

/-- The last call of the burst is refused, the one after the window is not. -/
theorem flood_limited :
    (serve new flood)[120]? = some (⟨0, .v4 1⟩, false) ∧
      (serve new flood)[122]? = some (⟨requestWindow, .v4 1⟩, true) ∧
      ((serve new flood).filter fun x =>
        decide (x.1.ip = .v4 1 ∧ x.2 = true ∧ 0 ≤ x.1.now ∧ x.1.now < 0 + requestWindow)).length ≤
        maxRequestsPerWindow ∧
      (serve new flood).filter (fun x => decide (x.1.ip = .v4 1)) =
        serve new (flood.filter fun r => decide (r.ip = .v4 1)) := by
  have hsorted : flood.Pairwise fun r r' => r.now ≤ r'.now := by decide +kernel
  obtain ⟨hbound, halone⟩ := requests_limited hsorted (.v4 1)
  exact ⟨by decide +kernel, by decide +kernel, hbound 0, halone⟩

end RateLimiter

end Haze
