import Mathlib.Data.List.Basic

/-!
# A sliding window of admissions

One client asks again and again; at most `cap` of its requests are admitted within `window` units of
time. What is remembered are the times of the admitted requests that still count (`recent`). Times that
do not count any more can be forgotten at any point: two memories that agree on the others (`Alike`)
answer alike for ever after.
-/

namespace Window

variable {window cap now : ℕ} {kept kept' : List ℕ}

/-- The times that still count at `now`. -/
def recent (window now : ℕ) (times : List ℕ) : List ℕ :=
  times.filter fun t => decide (now - t < window)

/-- The answer to a request, and what is remembered after it. -/
def accept (window cap : ℕ) (kept : List ℕ) (now : ℕ) : Bool × List ℕ :=
  if (recent window now kept).length ≥ cap then (false, recent window now kept)
  else (true, recent window now kept ++ [now])

/-- The requests, each with its answer. -/
def serve (window cap : ℕ) : List ℕ → List ℕ → List (ℕ × Bool)
  | _, [] => []
  | kept, now :: nows =>
      (now, (accept window cap kept now).1) :: serve window cap (accept window cap kept now).2 nows

/-- The times of the admitted requests. -/
def admitted (served : List (ℕ × Bool)) : List ℕ :=
  (served.filter Prod.snd).map Prod.fst

/-- From `now` on the same times count. -/
def Alike (window now : ℕ) (kept kept' : List ℕ) : Prop :=
  ∀ later, now ≤ later → recent window later kept = recent window later kept'

theorem Alike.refl (window now : ℕ) (kept : List ℕ) : Alike window now kept kept :=
  fun _ _ => rfl

theorem Alike.symm (h : Alike window now kept kept') : Alike window now kept' kept :=
  fun later hlater => (h later hlater).symm

theorem Alike.trans {kept'' : List ℕ} (h : Alike window now kept kept')
    (h' : Alike window now kept' kept'') : Alike window now kept kept'' :=
  fun later hlater => (h later hlater).trans (h' later hlater)

theorem Alike.mono {now' : ℕ} (h : Alike window now kept kept') (hle : now ≤ now') :
    Alike window now' kept kept' :=
  fun _ hlater => h _ (Nat.le_trans hle hlater)

theorem Alike.append (h : Alike window now kept kept') (times : List ℕ) :
    Alike window now (kept ++ times) (kept' ++ times) := by
  intro later hlater
  have hsame := h later hlater
  unfold recent at hsame ⊢
  rw [List.filter_append, List.filter_append, hsame]

/-- What does not count now does not count later. -/
theorem alike_recent (window now : ℕ) (kept : List ℕ) :
    Alike window now (recent window now kept) kept := by
  intro later hlater
  unfold recent
  rw [List.filter_filter]
  apply List.filter_congr
  intro t _
  rw [← Bool.decide_and, decide_eq_decide]
  omega

/-- If the last of a list of ascending times does not count, none does. -/
theorem alike_nil (hsorted : kept.Pairwise (· ≤ ·))
    (hlast : kept.getLast?.any (fun t => decide (now - t < window)) = false) : Alike window now kept [] := by
  intro later hlater
  rw [recent, recent, List.filter_nil, List.filter_eq_nil_iff]
  intro t ht
  obtain ⟨last, hget⟩ := Option.isSome_iff_exists.mp (List.getLast?_isSome.mpr (List.ne_nil_of_mem ht))
  obtain ⟨init, rfl⟩ := List.getLast?_eq_some_iff.mp hget
  rw [hget, Option.any_some, decide_eq_false_iff_not] at hlast
  rw [List.pairwise_append] at hsorted
  have hle : t ≤ last := by
    rcases List.mem_append.mp ht with hinit | hin
    · exact hsorted.2.2 t hinit last (List.mem_singleton_self last)
    · exact Nat.le_of_eq (List.mem_singleton.mp hin)
  rw [decide_eq_true_eq]
  omega

/-! ## Answers

Two lists that agree on all later windows are alike: the one that forgets what has passed out of the window,
and the one that forgets nothing. -/

/-- Memories that count alike give the same answer, and go on counting alike. -/
theorem Alike.accept (h : Alike window now kept kept') :
    (accept window cap kept now).1 = (accept window cap kept' now).1 ∧
      Alike window now (accept window cap kept now).2 (accept window cap kept' now).2 := by
  unfold Window.accept
  rw [h now (Nat.le_refl now)]
  exact ⟨rfl, Alike.refl _ _ _⟩

/-- What is remembered counts as what was before, with the request if it was admitted. -/
theorem alike_accept (window cap : ℕ) (kept : List ℕ) (now : ℕ) :
    Alike window now (accept window cap kept now).2
      (kept ++ if (accept window cap kept now).1 then [now] else []) := by
  unfold accept
  split
  · rw [if_neg Bool.false_ne_true, List.append_nil]
    exact alike_recent window now kept
  · rw [if_pos rfl]
    exact (alike_recent window now kept).append [now]

theorem admitted_cons (now : ℕ) (ok : Bool) (served : List (ℕ × Bool)) :
    admitted ((now, ok) :: served) = (if ok then [now] else []) ++ admitted served := by
  cases ok <;> rfl

/-- The times in the half-open window from `t` on. -/
def during (window t : ℕ) (times : List ℕ) : List ℕ :=
  times.filter fun a => decide (t ≤ a ∧ a < t + window)

theorem length_during_admitted (window t : ℕ) (served : List (ℕ × Bool)) :
    (during window t (admitted served)).length =
      (served.filter fun x => x.2 && decide (t ≤ x.1 ∧ x.1 < t + window)).length := by
  unfold during admitted
  rw [List.filter_map, List.length_map, List.filter_filter]
  congr 2
  funext x
  exact Bool.and_comm _ _

/-- One request keeps every window within the cap. -/
theorem during_accept {past : List ℕ} (hkept : Alike window now kept past)
    (hbound : ∀ t, (during window t past).length ≤ cap) (t : ℕ) :
    (during window t (past ++ if (accept window cap kept now).1 then [now] else [])).length ≤ cap := by
  unfold accept
  -- a request that is refused is not counted
  split
  · rw [if_neg Bool.false_ne_true, List.append_nil]
    exact hbound t
  next hroom =>
    rw [if_pos rfl, during, List.filter_append, List.length_append]
    by_cases hin : t ≤ now ∧ now < t + window
    · -- what lies in the window still counts
      have hsub : (during window t past).Sublist (recent window now past) := by
        apply List.monotone_filter_right
        intro a ha
        rw [decide_eq_true_eq] at ha ⊢
        omega
      have hlength := hsub.length_le
      rw [← hkept now (Nat.le_refl now)] at hlength
      rw [List.filter_cons_of_pos (by simpa using hin), List.filter_nil, List.length_singleton]
      unfold during at hlength
      omega
    · rw [List.filter_cons_of_neg (by simpa using hin), List.filter_nil, List.length_nil]
      exact hbound t

theorem during_serve {past nows : List ℕ} (hsorted : nows.Pairwise (· ≤ ·))
    (hkept : ∀ n ∈ nows, Alike window n kept past)
    (hbound : ∀ t, (during window t past).length ≤ cap) (t : ℕ) :
    (during window t (past ++ admitted (serve window cap kept nows))).length ≤ cap := by
  induction nows generalizing past kept with
  | nil =>
      rw [show admitted (serve window cap kept []) = [] from rfl, List.append_nil]
      exact hbound t
  | cons now nows ih =>
      rw [List.pairwise_cons] at hsorted
      have halike := hkept now List.mem_cons_self
      rw [serve, admitted_cons, ← List.append_assoc]
      apply ih hsorted.2
      · intro n hn
        refine ((alike_accept window cap kept now).trans ?_).mono (hsorted.1 n hn)
        exact halike.append _
      · exact during_accept halike hbound

/-- **Within every window at most `cap` requests are admitted.** -/
theorem during_admitted (window cap : ℕ) {nows : List ℕ} (hsorted : nows.Pairwise (· ≤ ·)) (t : ℕ) :
    (during window t (admitted (serve window cap [] nows))).length ≤ cap :=
  during_serve hsorted (fun n _ => Alike.refl window n []) (fun _ => Nat.zero_le cap) t

/-! ## A queue of times

The oldest time stands in front, and those that do not count any more are popped off it. -/

/-- Popping from the front leaves the times that count. -/
theorem dropWhile_eq_recent (hsorted : kept.Pairwise (· ≤ ·)) :
    kept.dropWhile (fun t => decide (now - t > window)) = recent (window + 1) now kept := by
  induction kept with
  | nil => rfl
  | cons t kept ih =>
      rw [List.pairwise_cons] at hsorted
      rw [List.dropWhile_cons, recent, List.filter_cons]
      by_cases hold : now - t > window
      · rw [if_pos (decide_eq_true hold), if_neg (by rw [decide_eq_true_eq]; omega), ih hsorted.2, recent]
      · rw [if_neg (by simpa using hold), if_pos (by rw [decide_eq_true_eq]; omega)]
        congr 1
        -- the others are younger
        refine (List.filter_eq_self.mpr fun a ha => ?_).symm
        have hle := hsorted.1 a ha
        rw [decide_eq_true_eq]
        omega

theorem pairwise_accept (hsorted : kept.Pairwise (· ≤ ·)) (hpast : ∀ t ∈ kept, t ≤ now) :
    (accept window cap kept now).2.Pairwise (· ≤ ·) ∧ ∀ t ∈ (accept window cap kept now).2, t ≤ now := by
  have hrecent : (recent window now kept).Pairwise (· ≤ ·) := hsorted.sublist List.filter_sublist
  have hpast' : ∀ t ∈ recent window now kept, t ≤ now := fun t ht => hpast t (List.mem_of_mem_filter ht)
  unfold accept
  split
  · exact ⟨hrecent, hpast'⟩
  · rw [List.pairwise_append, List.forall_mem_append, List.forall_mem_singleton]
    refine ⟨⟨hrecent, List.pairwise_singleton _ _, ?_⟩, hpast', Nat.le_refl now⟩
    intro t ht n hn
    rw [List.mem_singleton.mp hn]
    exact hpast' t ht

/-! ## Until the first refusal

A queue that ends at its first refusal, instead of going on with the next request. The requests before it
are the longest run within the cap. -/

theorem length_serve (window cap : ℕ) (kept nows : List ℕ) :
    (serve window cap kept nows).length = nows.length := by
  induction nows generalizing kept with
  | nil => rfl
  | cons now nows ih => rw [serve, List.length_cons, List.length_cons, ih]

/-- How many requests come before the first that is refused. -/
def untilRefused (window cap : ℕ) (kept nows : List ℕ) : ℕ :=
  ((serve window cap kept nows).takeWhile Prod.snd).length

theorem untilRefused_cons (window cap : ℕ) (kept : List ℕ) (now : ℕ) (nows : List ℕ) :
    untilRefused window cap kept (now :: nows) =
      if (accept window cap kept now).1 then
        untilRefused window cap (accept window cap kept now).2 nows + 1
      else 0 := by
  unfold untilRefused
  rw [serve, List.takeWhile_cons]
  split <;> rfl

/-- Every window of the requests is within the cap. -/
def Within (window cap : ℕ) (nows : List ℕ) : Prop :=
  ∀ t, (during window t nows).length ≤ cap

theorem Within.of_prefix {nows nows' : List ℕ} (h : Within window cap nows') (hpre : nows <+: nows') :
    Within window cap nows :=
  fun t => Nat.le_trans (hpre.sublist.filter _).length_le (h t)

/-- A request is admitted exactly if all windows stay within the cap. -/
theorem accept_iff_within {past : List ℕ} (hkept : Alike window now kept past)
    (hpast : ∀ t ∈ past, t ≤ now) (hbound : Within window cap past) (hwindow : 0 < window) :
    (accept window cap kept now).1 = true ↔ Within window cap (past ++ [now]) := by
  constructor
  · intro haccept t
    have hlength := during_accept hkept hbound t
    rwa [if_pos haccept] at hlength
  · intro hwithin
    -- the window that the request ends
    have hlength := hwithin (now + 1 - window)
    have hlast : now + 1 - window ≤ now ∧ now < now + 1 - window + window := by omega
    rw [during, List.filter_append, List.filter_cons_of_pos (by simpa using hlast), List.filter_nil,
      List.length_append, List.length_singleton] at hlength
    have hsub : (recent window now past).Sublist
        (past.filter fun a => decide (now + 1 - window ≤ a ∧ a < now + 1 - window + window)) := by
      rw [recent, List.filter_congr (q := fun a =>
        decide (now + 1 - window ≤ a ∧ a < now + 1 - window + window))]
      intro a ha
      have hle := hpast a ha
      rw [decide_eq_decide]
      omega
    have hle := hsub.length_le
    unfold accept
    rw [hkept now (Nat.le_refl now), if_neg (by omega)]

/-- From a memory that counts as `past`, the requests before the first refusal are the longest prefix that
keeps every window within the cap. -/
theorem le_untilRefused_iff_of_alike {past nows : List ℕ} (hsorted : nows.Pairwise (· ≤ ·))
    (hpast : ∀ t ∈ past, ∀ n ∈ nows, t ≤ n) (hkept : ∀ n ∈ nows, Alike window n kept past)
    (hbound : Within window cap past) (hwindow : 0 < window) {n : ℕ} (hn : n ≤ nows.length) :
    n ≤ untilRefused window cap kept nows ↔ Within window cap (past ++ nows.take n) := by
  induction nows generalizing past kept n with
  | nil =>
      obtain rfl := Nat.le_zero.mp hn
      refine iff_of_true (Nat.zero_le _) ?_
      rw [List.take_nil, List.append_nil]
      exact hbound
  | cons now nows ih =>
      rw [List.pairwise_cons] at hsorted
      cases n with
      | zero =>
          refine iff_of_true (Nat.zero_le _) ?_
          rw [List.take_zero, List.append_nil]
          exact hbound
      | succ n =>
          have halike := hkept now List.mem_cons_self
          have haccept := accept_iff_within halike (fun t ht => hpast t ht now List.mem_cons_self) hbound
            hwindow
          rw [untilRefused_cons, List.take_succ_cons, ← List.singleton_append, ← List.append_assoc]
          -- the first request is admitted if the window has room for it, and the others are judged after
          -- it
          split
          next hok =>
            rw [Nat.succ_le_succ_iff]
            refine ih hsorted.2 ?_ ?_ (haccept.mp hok) (Nat.le_of_succ_le_succ hn)
            · intro t ht n hn
              rcases List.mem_append.mp ht with ht | ht
              · exact hpast t ht n (List.mem_cons_of_mem now hn)
              · rw [List.mem_singleton.mp ht]
                exact hsorted.1 n hn
            · intro n hn
              have hafter := alike_accept window cap kept now
              rw [if_pos hok] at hafter
              exact (hafter.trans (halike.append [now])).mono (hsorted.1 n hn)
          next hrefused =>
            refine iff_of_false (Nat.not_succ_le_zero n) fun hwithin => hrefused (haccept.mpr ?_)
            exact hwithin.of_prefix (List.prefix_append _ _)

/-- **The first refusal** comes exactly where a window goes over the cap. -/
theorem le_untilRefused_iff {nows : List ℕ} (hsorted : nows.Pairwise (· ≤ ·)) (hwindow : 0 < window)
    {n : ℕ} (hn : n ≤ nows.length) :
    n ≤ untilRefused window cap [] nows ↔ Within window cap (nows.take n) :=
  le_untilRefused_iff_of_alike hsorted (fun _ h => absurd h List.not_mem_nil)
    (fun n _ => Alike.refl window n []) (fun _ => Nat.zero_le cap) hwindow hn

end Window
