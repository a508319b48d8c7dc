import Haze.Lib.Window
import Haze.P2p.Session

/-!
# The message budget of a connection (`p2p/src/server.rs`)

The loop of `handle_peer_connection` counts the messages of the last ten seconds, the one it has just
read included, and leaves the connection at the first that is one too many, before it is looked at. So
what a peer brings about is the work of its longest run of messages that stays within the budget.

Instants are numbers of nanoseconds. `Instant::duration_since` saturates, as subtraction does here.
-/

namespace Haze

variable {P : Crypto}

/-- `MAX_MESSAGES_PER_WINDOW`. -/
def maxMessagesPerWindow : ℕ := 600

/-- `MESSAGE_WINDOW`: ten seconds. -/
def messageWindow : ℕ := 10 * 10 ^ 9

/-- The messages of a peer, each with the time at which it was read. -/
abbrev Arrivals (P : Crypto) := List (ℕ × P2pMessage P)

namespace Connection

open Window

/-- `message_times` after a message, or `none` when the peer is disconnected. -/
def countMessage (messageTimes : List ℕ) (now : ℕ) : Option (List ℕ) :=
  let messageTimes := messageTimes.dropWhile (fun t => decide (now - t > messageWindow)) ++ [now]
  if messageTimes.length > maxMessagesPerWindow then none else some messageTimes

/-- The loop: the connection where it ends, and what was written back. -/
def handlePeerConnection (c : Connection P) (messageTimes : List ℕ) :
    Arrivals P → Connection P × List (P2pMessage P)
  | [] => (c, [])
  | (now, msg) :: rest =>
      match countMessage messageTimes now with
      | none => (c, [])
      | some messageTimes =>
          let (c', replies) := c.handle msg
          let (c'', later) := handlePeerConnection c' messageTimes rest
          (c'', replies ++ later)

/-- Messages one after another, without a budget. -/
def handleAll (c : Connection P) : List (P2pMessage P) → Connection P × List (P2pMessage P)
  | [] => (c, [])
  | msg :: rest =>
      let (c', replies) := c.handle msg
      let (c'', later) := handleAll c' rest
      (c'', replies ++ later)

/-- No ten seconds, both ends included, hold more messages than the budget. -/
def InBudget (arrivals : Arrivals P) : Prop :=
  ∀ t, (arrivals.filter fun a => decide (t ≤ a.1 ∧ a.1 ≤ t + messageWindow)).length ≤
    maxMessagesPerWindow

theorem inBudget_iff {arrivals : Arrivals P} :
    InBudget arrivals ↔ Within (messageWindow + 1) maxMessagesPerWindow (arrivals.map Prod.fst) := by
  refine forall_congr' fun t => ?_
  rw [during, List.filter_map, List.length_map]
  have hsame : (fun a : ℕ × P2pMessage P => decide (t ≤ a.1 ∧ a.1 ≤ t + messageWindow)) =
      (fun a => decide (t ≤ a ∧ a < t + (messageWindow + 1))) ∘ Prod.fst := by
    funext a
    rw [Function.comp_apply, decide_eq_decide]
    omega
  rw [hsame]

/-- One message is counted as a request to the window is. -/
theorem countMessage_eq {messageTimes : List ℕ} {now : ℕ} (hsorted : messageTimes.Pairwise (· ≤ ·)) :
    countMessage messageTimes now =
      if (accept (messageWindow + 1) maxMessagesPerWindow messageTimes now).1 then
        some (accept (messageWindow + 1) maxMessagesPerWindow messageTimes now).2
      else none := by
  unfold countMessage accept
  dsimp only
  rw [dropWhile_eq_recent hsorted, List.length_append, List.length_singleton]
  by_cases hfull : (recent (messageWindow + 1) now messageTimes).length ≥ maxMessagesPerWindow
  · rw [if_pos hfull, if_pos (Nat.lt_succ_of_le hfull)]
    rfl
  · rw [if_neg hfull, if_neg (by omega)]
    rfl

/-- The loop handles the messages before the first refusal. -/
theorem handlePeerConnection_eq {arrivals : Arrivals P} {messageTimes : List ℕ} {c : Connection P}
    (hmonotone : arrivals.Pairwise fun a b => a.1 ≤ b.1) (hsorted : messageTimes.Pairwise (· ≤ ·))
    (hpast : ∀ t ∈ messageTimes, ∀ a ∈ arrivals, t ≤ a.1) :
    c.handlePeerConnection messageTimes arrivals =
      c.handleAll ((arrivals.take (untilRefused (messageWindow + 1) maxMessagesPerWindow messageTimes
        (arrivals.map Prod.fst))).map Prod.snd) := by
  -- the window of the loop is the library's, so the loop stops where the library refuses first
  induction arrivals generalizing messageTimes c with
  | nil => rfl
  | cons a arrivals ih =>
      obtain ⟨now, msg⟩ := a
      rw [List.pairwise_cons] at hmonotone
      have hpast' : ∀ t ∈ messageTimes, t ≤ now := fun t ht => hpast t ht _ List.mem_cons_self
      rw [handlePeerConnection, countMessage_eq hsorted, List.map_cons, untilRefused_cons]
      split
      -- the message is one too many
      next hrefused =>
        split at hrefused
        · cases hrefused
        next hno =>
          rw [if_neg hno]
          rfl
      -- the message is handled, and the window goes on from it
      next hadmitted =>
        split at hadmitted
        next hok =>
          obtain rfl := Option.some.inj hadmitted
          have hkept : (accept (messageWindow + 1) maxMessagesPerWindow messageTimes now).2.Pairwise (· ≤ ·) ∧
              ∀ t ∈ (accept (messageWindow + 1) maxMessagesPerWindow messageTimes now).2, t ≤ now :=
            pairwise_accept hsorted hpast'
          obtain ⟨hsorted', hlatest⟩ := hkept
          rw [if_pos hok, List.take_succ_cons, List.map_cons, handleAll]
          generalize c.handle msg = handled
          obtain ⟨c', replies⟩ := handled
          dsimp only
          rw [ih hmonotone.2 hsorted']
          intro t ht b hb
          exact (hlatest t ht).trans (hmonotone.1 b hb)
        · cases hadmitted

/-- **The budget of a connection.** Whatever a peer sends, and whenever, its messages are handled one after
another up to some point, and that point is the end of the longest run that stays within the budget: a
peer that stays within it is never cut off, and one that does not is cut off at the first message too
many. -/
theorem connection_budget (c : Connection P) {arrivals : Arrivals P}
    (hmonotone : arrivals.Pairwise fun a b => a.1 ≤ b.1) :
    ∃ n ≤ arrivals.length,
      c.handlePeerConnection [] arrivals = c.handleAll ((arrivals.take n).map Prod.snd) ∧
      ∀ k ≤ arrivals.length, k ≤ n ↔ InBudget (arrivals.take k) := by
  have hle : untilRefused (messageWindow + 1) maxMessagesPerWindow [] (arrivals.map Prod.fst) ≤
      arrivals.length := by
    refine (List.takeWhile_sublist _).length_le.trans (Nat.le_of_eq ?_)
    rw [length_serve, List.length_map]
  refine ⟨_, hle, ?_, ?_⟩
  · exact handlePeerConnection_eq hmonotone List.Pairwise.nil fun _ h => absurd h List.not_mem_nil
  · intro k hk
    rw [inBudget_iff, List.map_take]
    apply le_untilRefused_iff (List.pairwise_map.mpr hmonotone) (Nat.succ_pos _)
    rw [List.length_map]
    exact hk

end Connection

namespace Devnet

open ChainState Connection

/-- A peer asks for blocks, as often as the budget allows and once more within ten seconds. -/
def hasty : Arrivals crypto :=
  List.replicate 600 (0, .getBlocks 1) ++
    [(messageWindow, .getBlocks 1), (messageWindow + 1, .handshake "203.0.113.1:3030")]

def answering : Connection crypto := ⟨ChainState.deliver [genesis], .idle⟩

def servedBatch : P2pMessage crypto :=
  .blocksBatch (answering.chain.getBlocksFrom 1 syncBatchSize).1
    (answering.chain.getBlocksFrom 1 syncBatchSize).2

theorem handleAll_requests (n : ℕ) :
    answering.handleAll (List.replicate n (.getBlocks 1)) = (answering, List.replicate n servedBatch) := by
  induction n with
  | zero => rfl
  | succ n ih =>
      rw [List.replicate_succ, handleAll, List.replicate_succ]
      show (_, servedBatch :: (answering.handleAll (List.replicate n (.getBlocks 1))).2) = _
      rw [ih]

/-- The first 600 are answered, the next is not, and what is sent after it is not looked at. -/
theorem hasty_cutOff :
    answering.handlePeerConnection [] hasty = (answering, List.replicate 600 servedBatch) := by
  have hmonotone : hasty.Pairwise fun a b => a.1 ≤ b.1 := by
    rw [hasty, List.pairwise_append]
    refine ⟨List.pairwise_replicate.mpr (.inr (Nat.le_refl 0)), by simp, ?_⟩
    intro a ha b _
    obtain rfl := (List.mem_replicate.mp ha).2
    exact Nat.zero_le _
  obtain ⟨n, hn, hhandled, hbudget⟩ := connection_budget answering hmonotone
  have hwithin : InBudget (hasty.take 600) := by
    intro t
    exact (List.length_filter_le _ _).trans (List.length_take_le _ _)
  have hbeyond : ¬ InBudget (hasty.take 601) := by
    intro h
    exact absurd (h 0) (by decide +kernel)
  have hlength : hasty.length = 602 := by
    rw [hasty, List.length_append, List.length_replicate]
    rfl
  have hn : n = 600 := by
    have hlow := (hbudget 600 (by omega)).mpr hwithin
    have hhigh := mt (hbudget 601 (by omega)).mp hbeyond
    omega
  rw [hhandled, hn, hasty, List.take_left' List.length_replicate, List.map_replicate]
  exact handleAll_requests 600

end Devnet

end Haze
