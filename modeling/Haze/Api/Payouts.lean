import Haze.Api.Faucet
import Haze.RateLimit

/-!
# The faucet over many requests (`api/src/faucet.rs`)

`/v1/faucet` builds a slate and remembers it, `/v1/faucet/complete` takes the remembered slate out and
turns the answer into a transaction. One slate is remembered at a time, for a minute; and an address gets
five requests through in an hour. The two handlers run in any order with each other and with whatever
else uses the faucet's wallet and the mempool.

Instants are numbers of nanoseconds, and a handler reads the clock once. A response that is no JSON of a
slate is `none`.
-/

namespace Haze

variable {P : Crypto} {W : WalletCrypto P}

/-! ## The handlers

A request is counted against the address it comes from before anything else is done for it, and the slate it
gets becomes the pending one. A completion takes the pending slate out first. Panics, as of a missing
treasury secret, are `none`. -/

/-- `MAX_FAUCET_AMOUNT`. -/
def maxFaucetAmount : UInt64 := 1000

/-- `PENDING_TIMEOUT`: a minute. -/
def pendingTimeout : ℕ := 60 * 10 ^ 9

/-- `RATE_LIMIT_MAX_REQUESTS`. -/
def rateLimitMaxRequests : ℕ := 5

/-- `RATE_LIMIT_WINDOW`: an hour. -/
def rateLimitWindow : ℕ := 3600 * 10 ^ 9

/-- The whole of the source's `FaucetState`; what its wallet has is in the parent. -/
structure FaucetService (P : Crypto) extends FaucetState P where
  pending : Option (PendingSlate P × ℕ)
  enabled : Bool
  rateLimits : KeyedMap IpAddr (List ℕ)

/-- The status code and the body of an answer. -/
inductive FaucetReply (P : Crypto) where
  | slate (built : Slate P)
  | success
  | error (status : ℕ) (message : String)

/-- `client_ip`. `parse` stands for `trim().parse()`, on what is before the first comma. -/
def clientIp (parse : String → Option IpAddr) (forwardedFor : Option String) (remote : Option IpAddr) :
    Option IpAddr :=
  match forwardedFor.bind fun header => parse (String.ofList (header.toList.takeWhile (· ≠ ','))) with
  | some ip => some ip
  | none => remote

namespace FaucetService

variable (f : FaucetService P)

/-- `check_rate_limit`. -/
def checkRateLimit (now : ℕ) (ip : IpAddr) : Bool × FaucetService P :=
  let entry := ((f.rateLimits.lookup ip).getD []).dropWhile fun oldest =>
    decide (now - oldest > rateLimitWindow)
  if entry.length ≥ rateLimitMaxRequests then
    (false, { f with rateLimits := f.rateLimits.insert ip entry })
  else (true, { f with rateLimits := f.rateLimits.insert ip (entry ++ [now]) })

/-- `FaucetState::reconcile`. -/
def reconcile (chain : ChainState P) : FaucetService P :=
  { f with store := f.store.reconcile chain.utxos }

/-- The rest of `handle_faucet_request`, once the request has been counted. -/
def offer (W : WalletCrypto P) (coins : ℕ → SlateCoins W) (now : ℕ) (amount : UInt64)
    (chain : ChainState P) : Option (FaucetReply P × FaucetService P) :=
  let f := f.reconcile chain
  if f.pending.any fun p => decide (now - p.2 < pendingTimeout) then
    some (.error 409 "faucet is completing another request, try again in a few seconds", f)
  else
    match createSlate W coins f.keystore f.store amount minFee with
    | none => none
    | some (.ok (built, pending), keystore) =>
        some (.slate built, { f with keystore := keystore, pending := some (pending, now) })
    | some (.error _, keystore) =>
        some (.error 503 ("faucet reserve temporarily depleted (recent payouts still confirming) - " ++
          "try again shortly"), { f with keystore := keystore })

/-- `handle_faucet_request`; `none` is a panic. -/
def handleFaucetRequest (W : WalletCrypto P) (parse : String → Option IpAddr) (coins : ℕ → SlateCoins W)
    (now : ℕ) (forwardedFor : Option String) (remote : Option IpAddr) (amount : UInt64)
    (chain : ChainState P) : Option (FaucetReply P × FaucetService P) :=
  if !f.enabled then
    some (.error 503 "faucet is not configured on this node (HAZE_TREASURY_BLINDING unset)", f)
  else if amount = 0 || amount > maxFaucetAmount then
    some (.error 400 ("amount must be between 1 and " ++ toString maxFaucetAmount.toNat), f)
  else
    match clientIp parse forwardedFor remote with
    | none => some (.error 400 "could not determine requester IP", f)
    | some ip =>
        let (admitted, f) := f.checkRateLimit now ip
        if !admitted then
          some (.error 429 ("rate limit exceeded - at most " ++ toString rateLimitMaxRequests ++
            " faucet requests per hour per IP"), f)
        else f.offer W coins now amount chain

/-- `handle_faucet_complete`. The pending slate is taken out first, whatever comes of the response. -/
def handleFaucetComplete (W : WalletCrypto P) (response : Option (Slate P)) (m : Mempool P) :
    FaucetReply P × FaucetService P × Mempool P :=
  match f.pending with
  | none => (.error 400 "no pending faucet request - call /v1/faucet first", f, m)
  | some (pending, _) =>
      let f := { f with pending := none }
      match response with
      | none => (.error 400 "invalid response slate JSON", f, m)
      | some response =>
          match finalizeSlate pending response with
          | .error _ => (.error 400 "incomplete response slate", f, m)
          | .ok transaction =>
              if !transaction.validate then
                (.error 400 "constructed faucet transaction failed validation", f, m)
              else
                match m.addTransaction (Transaction.serializedSize W) transaction with
                | none => (.error 400 "mempool rejected the faucet transaction", f, m)
                | some m => (.success, { f with store := pending.commit f.store }, m)

end FaucetService

/-! ## Runs

A run is a list of calls in the order in which the lock of the faucet is taken. Sponsored registrations and
the mempool are other parts of the node; here they may leave behind whatever they like. -/

/-- A node with its faucet. -/
structure FaucetNode (P : Crypto) where
  faucet : FaucetService P
  mempool : Mempool P

/-- What happens to them. -/
inductive FaucetCall (W : WalletCrypto P) where
  | request (now : ℕ) (forwardedFor : Option String) (remote : Option IpAddr) (amount : UInt64)
      (chain : ChainState P) (coins : ℕ → SlateCoins W)
  | complete (response : Option (Slate P))
  /-- Registrations that are sponsored change the keystore and the ledger. -/
  | sponsor (wallet : FaucetState P)
  /-- Transactions come and go in the mempool. -/
  | pool (m : Mempool P)

/-- What a maintainer sees of a run. -/
inductive FaucetRecord (P : Crypto) where
  /-- A slate was handed out. -/
  | issued (now : ℕ) (ip : IpAddr) (amount : UInt64) (pending : PendingSlate P)
  /-- The pending slate was taken out, and a transaction was queued or not. -/
  | taken (paid : Option (Transaction P))

/-- What there is to see of a request. -/
def issuedRecord (now : ℕ) (amount : UInt64) :
    FaucetReply P → Option IpAddr → Option (PendingSlate P × ℕ) → List (FaucetRecord P)
  | .slate _, some ip, some (pending, _) => [.issued now ip amount pending]
  | _, _, _ => []

/-- What there is to see of a completion: the slate that was pending before, the answer, and the mempool
after it. -/
def takenRecord (m : Mempool P) : Option (PendingSlate P × ℕ) → FaucetReply P → List (FaucetRecord P)
  | none, _ => []
  | some _, .success => [.taken m.pendingTxs.getLast?]
  | some _, _ => [.taken none]

namespace FaucetNode

variable (parse : String → Option IpAddr)

/-- A call, and what there is to see of it. -/
def call (n : FaucetNode P) : FaucetCall W → Option (FaucetNode P × List (FaucetRecord P))
  | .request now forwardedFor remote amount chain coins => do
      let (reply, faucet) ←
        n.faucet.handleFaucetRequest W parse coins now forwardedFor remote amount chain
      let ip := clientIp parse forwardedFor remote
      return (⟨faucet, n.mempool⟩, issuedRecord now amount reply ip faucet.pending)
  | .complete response =>
      let (reply, faucet, mempool) := n.faucet.handleFaucetComplete W response n.mempool
      some (⟨faucet, mempool⟩, takenRecord mempool n.faucet.pending reply)
  | .sponsor wallet => some (⟨{ n.faucet with toFaucetState := wallet }, n.mempool⟩, [])
  | .pool m => some (⟨n.faucet, m⟩, [])

/-- A run of calls, with its log. -/
def run (n : FaucetNode P) (log : List (FaucetRecord P)) :
    List (FaucetCall W) → Option (FaucetNode P × List (FaucetRecord P))
  | [] => some (n, log)
  | c :: calls => do
      let (n', records) ← n.call parse c
      run n' (log ++ records) calls

end FaucetNode

/-! ## One call

What one call does to the pending slate and the limiter. -/

section Call

open Window

variable {f f' : FaucetService P} {n n' : FaucetNode P} {now : ℕ} {log : List (FaucetRecord P)}
  {parse : String → Option IpAddr} {coins : ℕ → SlateCoins W} {forwardedFor : Option String}
  {ip remote : Option IpAddr} {amount : UInt64} {chain : ChainState P}
  {reply : FaucetReply P} {c : FaucetCall W} {records : List (FaucetRecord P)}

/-- What is remembered of an address. -/
def FaucetService.times (f : FaucetService P) (ip : IpAddr) : List ℕ :=
  (f.rateLimits.lookup ip).getD []

/-- A request that is counted goes through the window of its address. -/
theorem checkRateLimit_eq {ip : IpAddr} (hsorted : (f.times ip).Pairwise (· ≤ ·)) :
    f.checkRateLimit now ip =
      ((accept (rateLimitWindow + 1) rateLimitMaxRequests (f.times ip) now).1,
        { f with
          rateLimits := f.rateLimits.insert ip
            (accept (rateLimitWindow + 1) rateLimitMaxRequests (f.times ip) now).2 }) := by
  unfold FaucetService.times at hsorted ⊢
  unfold FaucetService.checkRateLimit accept
  dsimp only
  rw [dropWhile_eq_recent hsorted]
  split <;> rfl

/-- A request is turned away, before or after it was counted, or its slate becomes the pending one; then the
slate before it has timed out. -/
inductive Requested (f : FaucetService P) (now : ℕ) (ip : Option IpAddr) (amount : UInt64) :
    FaucetReply P → FaucetService P → Prop
  | unseen {f' : FaucetService P} {status : ℕ} {message : String} (hpending : f'.pending = f.pending)
      (hlimits : f'.rateLimits = f.rateLimits) : Requested f now ip amount (.error status message) f'
  | counted {f' : FaucetService P} {status : ℕ} {message : String} (ip' : IpAddr)
      (hpending : f'.pending = f.pending)
      (hlimits : f'.rateLimits = (f.checkRateLimit now ip').2.rateLimits) :
      Requested f now ip amount (.error status message) f'
  | issued {f' : FaucetService P} {built : Slate P} (ip' : IpAddr) (pending : PendingSlate P)
      (hip : ip = some ip') (hadmitted : (f.checkRateLimit now ip').1 = true)
      (hlimits : f'.rateLimits = (f.checkRateLimit now ip').2.rateLimits)
      (hpending : f'.pending = some (pending, now)) (hamount : amount ≠ 0 ∧ amount ≤ maxFaucetAmount)
      (htimeout : ∀ p ∈ f.pending, p.2 + pendingTimeout ≤ now) : Requested f now ip amount (.slate built) f'

theorem pending_checkRateLimit (f : FaucetService P) (now : ℕ) (ip : IpAddr) :
    (f.checkRateLimit now ip).2.pending = f.pending := by
  unfold FaucetService.checkRateLimit
  dsimp only
  split <;> rfl

/-- An offer is an error that changes nothing here, or a slate; then what was pending has timed out. -/
theorem offer_cases (h : f.offer W coins now amount chain = some (reply, f')) :
    f'.rateLimits = f.rateLimits ∧
      ((∃ status message, reply = .error status message ∧ f'.pending = f.pending) ∨
        ∃ built pending, reply = .slate built ∧ f'.pending = some (pending, now) ∧
          ∀ p ∈ f.pending, p.2 + pendingTimeout ≤ now) := by
  unfold FaucetService.offer at h
  dsimp only [FaucetService.reconcile] at h
  split at h
  -- another slate is pending and has not timed out
  · cases h
    exact ⟨rfl, .inl ⟨_, _, rfl, rfl⟩⟩
  next hfree =>
    split at h
    · cases h
    next built pending keystore _ =>
      cases h
      refine ⟨rfl, .inr ⟨built, pending, rfl, rfl, ?_⟩⟩
      intro p hp
      rw [hp, Option.any_some, decide_eq_true_eq, Nat.not_lt] at hfree
      unfold pendingTimeout at hfree ⊢
      omega
    · cases h
      exact ⟨rfl, .inl ⟨_, _, rfl, rfl⟩⟩

theorem requested_of_eq_some
    (h : f.handleFaucetRequest W parse coins now forwardedFor remote amount chain = some (reply, f')) :
    Requested f now (clientIp parse forwardedFor remote) amount reply f' := by
  unfold FaucetService.handleFaucetRequest at h
  -- not configured
  split at h
  · cases h
    exact .unseen rfl rfl
  -- no amount, or too much
  split at h
  · cases h
    exact .unseen rfl rfl
  next hamount =>
  -- no address
  split at h
  · cases h
    exact .unseen rfl rfl
  next ip' hip =>
  have hsame := pending_checkRateLimit f now ip'
  cases hadmitted : (f.checkRateLimit now ip').1 with
  | false =>
      simp only [hadmitted, Bool.not_false, if_true, Option.some.injEq, Prod.mk.injEq] at h
      obtain ⟨rfl, rfl⟩ := h
      exact .counted ip' hsame rfl
  | true =>
      simp only [hadmitted, Bool.not_true, Bool.false_eq_true, if_false] at h
      obtain ⟨hlimits, ⟨status, message, rfl, hpending⟩ | ⟨built, pending, rfl, hpending, htimeout⟩⟩ :=
        offer_cases h
      · exact .counted ip' (hpending.trans hsame) hlimits
      · simp only [Bool.or_eq_true, decide_eq_true_eq, not_or] at hamount
        exact .issued ip' pending hip hadmitted hlimits hpending ⟨hamount.1, UInt64.not_lt.mp hamount.2⟩
          (hsame ▸ htimeout)

/-- With the treasury's secret in place no request panics. -/
theorem createSlate_isSome (hsecret : W.treasuryBlinding.isSome) (coins : ℕ → SlateCoins W)
    (keystore : Keystore) (store : WalletStore P) (amount fee : UInt64) :
    (createSlate W coins keystore store amount fee).isSome = true := by
  have hholds : HoldsSecret W store := fun _ _ _ => hsecret
  have hbuild : ∀ attempt keystore fee,
      (buildSlate W (coins attempt) keystore store amount fee).isSome = true := by
    intro attempt keystore fee
    unfold buildSlate
    dsimp only
    split
    · rfl
    next selected hselected =>
      obtain ⟨blindings, hblindings⟩ := inputBlindings_of_holdsSecret hholds keystore hselected
      rw [hblindings]
      rfl
  -- the attempts to fit the fee go on with another fee and other change, but with the same secrets
  unfold createSlate
  generalize maxFeeFitAttempts = attempts
  induction attempts generalizing keystore fee with
  | zero => rfl
  | succ attempts ih =>
      unfold fitFee
      have hsome := hbuild attempts keystore fee
      split
      next hnone =>
        rw [hnone] at hsome
        cases hsome
      · rfl
      next =>
        dsimp only
        split
        · rfl
        · exact ih _ _

theorem offer_isSome (hsecret : W.treasuryBlinding.isSome) (f : FaucetService P) :
    (f.offer W coins now amount chain).isSome = true := by
  unfold FaucetService.offer
  dsimp only
  split
  · rfl
  have hcreated := createSlate_isSome hsecret coins (f.reconcile chain).keystore
    (f.reconcile chain).store amount minFee
  split
  next hnone =>
    rw [hnone] at hcreated
    cases hcreated
  · rfl
  · rfl

theorem handleFaucetRequest_isSome (hconfigured : f.enabled = true → W.treasuryBlinding.isSome)
    (parse : String → Option IpAddr) (coins : ℕ → SlateCoins W) (now : ℕ) (forwardedFor : Option String)
    (remote : Option IpAddr) (amount : UInt64) (chain : ChainState P) :
    (f.handleFaucetRequest W parse coins now forwardedFor remote amount chain).isSome = true := by
  unfold FaucetService.handleFaucetRequest
  split
  · rfl
  next henabled =>
  split
  · rfl
  split
  · rfl
  dsimp only
  split
  · rfl
  exact offer_isSome (hconfigured (by simpa using henabled)) _

theorem enabled_handleFaucetRequest
    (h : f.handleFaucetRequest W parse coins now forwardedFor remote amount chain = some (reply, f')) :
    f'.enabled = f.enabled := by
  have hcounted : ∀ ip', (f.checkRateLimit now ip').2.enabled = f.enabled := by
    intro ip'
    unfold FaucetService.checkRateLimit
    dsimp only
    split <;> rfl
  unfold FaucetService.handleFaucetRequest at h
  split at h
  · cases h
    rfl
  split at h
  · cases h
    rfl
  split at h
  · cases h
    rfl
  dsimp only at h
  split at h
  · cases h
    exact hcounted _
  unfold FaucetService.offer at h
  dsimp only at h
  split at h
  · cases h
    exact hcounted _
  split at h
  · cases h
  · cases h
    exact hcounted _
  · cases h
    exact hcounted _

/-- A completion takes the pending slate; a success has queued a valid transaction of it. -/
theorem handleFaucetComplete_cases (W : WalletCrypto P) (f : FaucetService P)
    (response : Option (Slate P)) (m : Mempool P) :
    (f.pending = none ∧ (f.handleFaucetComplete W response m).2.1 = f) ∨
      ∃ pending now, f.pending = some (pending, now) ∧
        (f.handleFaucetComplete W response m).2.1.pending = none ∧
        (f.handleFaucetComplete W response m).2.1.rateLimits = f.rateLimits ∧
        (f.handleFaucetComplete W response m).2.1.enabled = f.enabled ∧
        ((f.handleFaucetComplete W response m).1 = .success →
          ∃ tx answer, (f.handleFaucetComplete W response m).2.2.pendingTxs = m.pendingTxs ++ [tx] ∧
            tx.validate = true ∧ finalizeSlate pending answer = .ok tx) := by
  -- every way out but the first leaves the pending slate taken
  unfold FaucetService.handleFaucetComplete
  split
  next hnone => exact .inl ⟨hnone, rfl⟩
  next pending now hpending =>
    refine .inr ⟨pending, now, hpending, ?_⟩
    dsimp only
    split
    · exact ⟨rfl, rfl, rfl, nofun⟩
    next answer =>
      split
      · exact ⟨rfl, rfl, rfl, nofun⟩
      next tx hfinal =>
        split
        · exact ⟨rfl, rfl, rfl, nofun⟩
        next hvalid =>
          split
          · exact ⟨rfl, rfl, rfl, nofun⟩
          next m' hadd =>
            obtain ⟨-, rfl⟩ := Mempool.addTransaction_eq_some.mp hadd
            exact ⟨rfl, rfl, rfl, fun _ => ⟨tx, answer, rfl, by simpa using hvalid, hfinal⟩⟩

/-! ## The log

The log is what the theorem is about. `Accounted` ties it to the state: the pending slate is the last
record, and what the limiter remembers of an address is what was let through. -/

/-- The times at which slates were issued to an address. -/
def issuedTo (ip : IpAddr) (log : List (FaucetRecord P)) : List ℕ :=
  log.filterMap fun
    | .issued now ip' _ _ => if ip' = ip then some now else none
    | .taken _ => none

/-- What may stand behind a record: a slate is issued again only a minute later, it is taken once, and what
is paid then is a valid transaction of that slate. -/
def FaucetRecord.Follows : FaucetRecord P → FaucetRecord P → Prop
  | .issued now _ _ _, .issued now' _ _ _ => now + pendingTimeout ≤ now'
  | .issued _ _ _ pending, .taken paid =>
      ∀ tx ∈ paid, tx.validate = true ∧ ∃ answer, finalizeSlate pending answer = .ok tx
  | .taken _, .issued _ _ _ _ => True
  | .taken _, .taken _ => False

/-- No slate is for more than the cap, or for nothing. -/
def FaucetRecord.Capped : FaucetRecord P → Prop
  | .issued _ _ amount _ => amount ≠ 0 ∧ amount ≤ maxFaucetAmount
  | .taken _ => True

/-- The pending slate is the last one that was issued, if that has not been taken. -/
def PendingIsLast (pending : Option (PendingSlate P × ℕ)) (log : List (FaucetRecord P)) : Prop :=
  match pending with
  | some (pending, now) => ∃ ip amount, log.getLast? = some (.issued now ip amount pending)
  | none => ∀ r ∈ log.getLast?, ∃ paid, r = .taken paid

/-- The limiter remembers of an address what was let through, and that stays within the limit. -/
structure Metered (f : FaucetService P) (now : ℕ) (ip : IpAddr) (granted : List ℕ) : Prop where
  counts : Alike (rateLimitWindow + 1) now (f.times ip) granted
  within : Within (rateLimitWindow + 1) rateLimitMaxRequests granted
  sorted : (f.times ip).Pairwise (· ≤ ·)
  past : ∀ t ∈ f.times ip, t ≤ now

theorem Metered.mono {granted : List ℕ} {ip : IpAddr} {now' : ℕ} (h : Metered f now ip granted)
    (hle : now ≤ now') : Metered f now' ip granted :=
  ⟨h.counts.mono hle, h.within, h.sorted, fun t ht => (h.past t ht).trans hle⟩

theorem Metered.congr {granted : List ℕ} {ip : IpAddr} (h : Metered f now ip granted)
    (hlimits : f'.rateLimits = f.rateLimits) : Metered f' now ip granted := by
  have htimes : f'.times ip = f.times ip := by
    rw [FaucetService.times, FaucetService.times, hlimits]
  exact ⟨htimes ▸ h.counts, h.within, htimes ▸ h.sorted, htimes ▸ h.past⟩

theorem times_checkRateLimit_self (now : ℕ) {ip : IpAddr} (hsorted : (f.times ip).Pairwise (· ≤ ·)) :
    (f.checkRateLimit now ip).2.times ip =
      (accept (rateLimitWindow + 1) rateLimitMaxRequests (f.times ip) now).2 := by
  rw [checkRateLimit_eq hsorted, FaucetService.times, Finmap.lookup_insert, Option.getD_some]

theorem times_checkRateLimit_of_ne {ip ip' : IpAddr} (hip : ip ≠ ip') :
    (f.checkRateLimit now ip').2.times ip = f.times ip := by
  unfold FaucetService.checkRateLimit FaucetService.times
  dsimp only
  split
  · rw [Finmap.lookup_insert_of_ne _ hip]
  · rw [Finmap.lookup_insert_of_ne _ hip]

/-- A counted request keeps every address within its limit. -/
theorem Metered.check {granted : List ℕ} {ip : IpAddr} (h : Metered f now ip granted) (ip' : IpAddr) :
    Metered (f.checkRateLimit now ip').2 now ip
      (granted ++ if ip' = ip ∧ (f.checkRateLimit now ip').1 = true then [now] else []) := by
  -- the limiter of another address is not touched
  by_cases hip : ip' = ip
  · subst hip
    have htimes := times_checkRateLimit_self now h.sorted
    have hadmitted : (f.checkRateLimit now ip').1 =
        (accept (rateLimitWindow + 1) rateLimitMaxRequests (f.times ip') now).1 := by
      rw [checkRateLimit_eq h.sorted]
    have hkept : (accept (rateLimitWindow + 1) rateLimitMaxRequests (f.times ip') now).2.Pairwise (· ≤ ·) ∧
        ∀ t ∈ (accept (rateLimitWindow + 1) rateLimitMaxRequests (f.times ip') now).2, t ≤ now :=
      pairwise_accept h.sorted h.past
    obtain ⟨hsorted, hpast⟩ := hkept
    have hafter := (alike_accept (rateLimitWindow + 1) rateLimitMaxRequests (f.times ip') now).trans
      (h.counts.append _)
    rw [hadmitted]
    simp only [true_and]
    refine ⟨?_, during_accept h.counts h.within, ?_, ?_⟩
    · rw [htimes]
      exact hafter
    · rw [htimes]
      exact hsorted
    · rw [htimes]
      exact hpast
  · have htimes : (f.checkRateLimit now ip').2.times ip = f.times ip :=
      times_checkRateLimit_of_ne (Ne.symm hip)
    rw [if_neg (fun hand => hip hand.1), List.append_nil]
    refine ⟨?_, h.within, ?_, ?_⟩
    · rw [htimes]
      exact h.counts
    · rw [htimes]
      exact h.sorted
    · rw [htimes]
      exact h.past

/-- The log is in order, and the service remembers what it needs of it. -/
structure Accounted (now : ℕ) (f : FaucetService P) (log : List (FaucetRecord P)) : Prop where
  follows : log.IsChain FaucetRecord.Follows
  opens : ∀ r ∈ log.head?, ∀ paid, r ≠ .taken paid
  pending : PendingIsLast f.pending log
  capped : ∀ r ∈ log, r.Capped
  metered : ∀ ip, ∃ granted, (issuedTo ip log).Sublist granted ∧ Metered f now ip granted

theorem Accounted.mono {now' : ℕ} (h : Accounted now f log) (hle : now ≤ now') :
    Accounted now' f log := by
  refine { h with metered := fun ip => ?_ }
  obtain ⟨granted, hsub, hmetered⟩ := h.metered ip
  exact ⟨granted, hsub, hmetered.mono hle⟩

/-- What changes neither the pending slate nor the limiter. -/
theorem Accounted.congr (h : Accounted now f log) (hpending : f'.pending = f.pending)
    (hlimits : f'.rateLimits = f.rateLimits) : Accounted now f' log := by
  refine { h with pending := hpending ▸ h.pending, metered := fun ip => ?_ }
  obtain ⟨granted, hsub, hmetered⟩ := h.metered ip
  exact ⟨granted, hsub, hmetered.congr hlimits⟩

theorem issuedTo_append (ip : IpAddr) (log records : List (FaucetRecord P)) :
    issuedTo ip (log ++ records) = issuedTo ip log ++ issuedTo ip records :=
  List.filterMap_append

/-- A request. -/
theorem Accounted.request (h : Accounted now f log) (hrequested : Requested f now ip amount reply f') :
    Accounted now f' (log ++ issuedRecord now amount reply ip f'.pending) := by
  cases hrequested with
  | unseen hpending hlimits =>
      show Accounted now f' (log ++ [])
      rw [List.append_nil]
      exact h.congr hpending hlimits
  | counted ip' hpending hlimits =>
      show Accounted now f' (log ++ [])
      rw [List.append_nil]
      -- turned away after it was counted: the limiter moves on, the log does not
      refine { h with pending := hpending ▸ h.pending, metered := fun ip => ?_ }
      obtain ⟨granted, hsub, hmetered⟩ := h.metered ip
      have hchecked := (hmetered.check ip').congr hlimits
      exact ⟨_, hsub.trans (List.sublist_append_left _ _), hchecked⟩
  | issued ip' pending hip hadmitted hlimits hpending hamount htimeout =>
      rw [hip, hpending, issuedRecord]
      refine ⟨?_, ?_, ?_, ?_, ?_⟩
      -- what was issued before is now a minute old
      · refine List.isChain_append.mpr ⟨h.follows, List.isChain_singleton _, ?_⟩
        intro r hr r' hr'
        obtain rfl := Option.some.inj hr'
        have hlast := h.pending
        unfold PendingIsLast at hlast
        split at hlast
        next pending₀ now₀ hsome =>
          obtain ⟨ip₀, amount₀, hlast⟩ := hlast
          rw [hlast] at hr
          obtain rfl := Option.some.inj hr
          exact htimeout _ hsome
        next =>
          obtain ⟨paid, rfl⟩ := hlast r hr
          trivial
      · intro r hr paid
        cases log with
        | nil =>
            obtain rfl := Option.some.inj hr
            exact nofun
        | cons first log => exact h.opens r hr paid
      · rw [hpending]
        exact ⟨ip', amount, List.getLast?_concat⟩
      · rw [List.forall_mem_append, List.forall_mem_singleton]
        exact ⟨h.capped, hamount⟩
      · intro ip
        obtain ⟨granted, hsub, hmetered⟩ := h.metered ip
        refine ⟨_, ?_, (hmetered.check ip').congr hlimits⟩
        rw [issuedTo_append]
        refine hsub.append ?_
        by_cases hip : ip' = ip
        · rw [if_pos ⟨hip, hadmitted⟩]
          simp [issuedTo, hip]
        · rw [if_neg fun hand => hip hand.1]
          simp [issuedTo, hip]

/-- A completion. -/
theorem Accounted.complete (h : Accounted now f log) (response : Option (Slate P)) (m : Mempool P) :
    Accounted now (f.handleFaucetComplete W response m).2.1
      (log ++ takenRecord (f.handleFaucetComplete W response m).2.2 f.pending
        (f.handleFaucetComplete W response m).1) := by
  rcases handleFaucetComplete_cases W f response m with
    ⟨hnone, hsame⟩ | ⟨pending, issuedAt, hpending, hnone, hlimits, -, hsuccess⟩
  · rw [hnone, hsame, takenRecord, List.append_nil]
    exact h
  · obtain ⟨paid, hrecords, hpaid⟩ : ∃ paid,
        takenRecord (f.handleFaucetComplete W response m).2.2 f.pending
          (f.handleFaucetComplete W response m).1 = [.taken paid] ∧
        ∀ tx ∈ paid, tx.validate = true ∧ ∃ answer, finalizeSlate pending answer = .ok tx := by
      rw [hpending]
      cases hreply : (f.handleFaucetComplete W response m).1 with
      | success =>
          obtain ⟨tx, answer, hqueued, hvalid, hfinal⟩ := hsuccess hreply
          refine ⟨some tx, ?_, ?_⟩
          · rw [takenRecord, hqueued, List.getLast?_concat]
          · intro tx' htx'
            -- by `handleFaucetComplete_cases` the queued transaction is the slate's
            obtain rfl := Option.some.inj htx'
            exact ⟨hvalid, answer, hfinal⟩
      | slate built => exact ⟨none, rfl, nofun⟩
      | error status message => exact ⟨none, rfl, nofun⟩
    rw [hrecords]
    have hlast := h.pending
    rw [hpending] at hlast
    obtain ⟨ip, amount, hlast⟩ := hlast
    refine ⟨?_, ?_, ?_, ?_, ?_⟩
    · refine List.isChain_append.mpr ⟨h.follows, List.isChain_singleton _, ?_⟩
      intro r hr r' hr'
      rw [hlast] at hr
      obtain rfl := Option.some.inj hr
      obtain rfl := Option.some.inj hr'
      exact hpaid
    · intro r hr paid
      cases log with
      | nil => cases hlast
      | cons first log => exact h.opens r hr paid
    · rw [hnone]
      intro r hr
      rw [List.getLast?_concat] at hr
      exact ⟨paid, (Option.some.inj hr).symm⟩
    · rw [List.forall_mem_append, List.forall_mem_singleton]
      exact ⟨h.capped, trivial⟩
    · intro ip'
      obtain ⟨granted, hsub, hmetered⟩ := h.metered ip'
      refine ⟨granted, ?_, hmetered.congr hlimits⟩
      rw [issuedTo_append]
      simpa [issuedTo] using hsub

/-! ## Runs

The clock of a run is that of the requests, which are the calls that read it. It may stand still but not go
back. -/

/-- The clock at a call, for the calls that read it. -/
def FaucetCall.now? : FaucetCall W → Option ℕ
  | .request now _ _ _ _ _ => some now
  | _ => none

/-- The service of a node that has just started. -/
structure FaucetService.Fresh (f : FaucetService P) : Prop where
  pending : f.pending = none
  rateLimits : f.rateLimits = ∅

theorem FaucetService.Fresh.accounted (h : f.Fresh) (now : ℕ) : Accounted now f [] := by
  refine ⟨List.isChain_nil, nofun, ?_, nofun, ?_⟩
  · rw [h.pending]
    exact nofun
  · intro ip
    have htimes : f.times ip = [] := by
      rw [FaucetService.times, h.rateLimits]
      rfl
    refine ⟨[], List.Sublist.refl [], ?_, fun _ => Nat.zero_le _, ?_, ?_⟩
    · rw [htimes]
      exact Alike.refl _ _ _
    · rw [htimes]
      exact List.Pairwise.nil
    · rw [htimes]
      exact nofun

/-- A call keeps the accounts, and its clock is the last that was read. -/
theorem Accounted.call (h : Accounted now n.faucet log) (hclock : ∀ t ∈ c.now?, now ≤ t)
    (hcall : n.call parse c = some (n', records)) :
    Accounted (c.now?.getD now) n'.faucet (log ++ records) := by
  cases c with
  | request t forwardedFor remote amount chain coins =>
      have h' := h.mono (hclock t rfl)
      simp only [FaucetNode.call, Option.bind_eq_bind, Option.bind_eq_some_iff, Option.pure_def,
        Option.some.injEq, Prod.mk.injEq] at hcall
      obtain ⟨⟨reply, f'⟩, hrequest, rfl, rfl⟩ := hcall
      exact h'.request (requested_of_eq_some hrequest)
  | complete response =>
      obtain ⟨rfl, rfl⟩ := Prod.mk.inj (Option.some.inj hcall)
      exact h.complete response n.mempool
  | sponsor wallet =>
      obtain ⟨rfl, rfl⟩ := Prod.mk.inj (Option.some.inj hcall)
      rw [List.append_nil]
      exact h.congr rfl rfl
  | pool m =>
      obtain ⟨rfl, rfl⟩ := Prod.mk.inj (Option.some.inj hcall)
      rw [List.append_nil]
      exact h

theorem enabled_call (hcall : n.call parse c = some (n', records)) :
    n'.faucet.enabled = n.faucet.enabled := by
  cases c with
  | request t forwardedFor remote amount chain coins =>
      simp only [FaucetNode.call, Option.bind_eq_bind, Option.bind_eq_some_iff, Option.pure_def,
        Option.some.injEq, Prod.mk.injEq] at hcall
      obtain ⟨⟨reply, f'⟩, hrequest, rfl, -⟩ := hcall
      exact enabled_handleFaucetRequest hrequest
  | complete response =>
      obtain ⟨rfl, -⟩ := Prod.mk.inj (Option.some.inj hcall)
      rcases handleFaucetComplete_cases W n.faucet response n.mempool with
        ⟨-, hsame⟩ | ⟨_, _, -, -, -, henabled, -⟩
      · exact congrArg FaucetService.enabled hsame
      · exact henabled
  | sponsor wallet =>
      obtain ⟨rfl, -⟩ := Prod.mk.inj (Option.some.inj hcall)
      rfl
  | pool m =>
      obtain ⟨rfl, -⟩ := Prod.mk.inj (Option.some.inj hcall)
      rfl

theorem call_isSome (hconfigured : n.faucet.enabled = true → W.treasuryBlinding.isSome)
    (parse : String → Option IpAddr) (c : FaucetCall W) :
    ∃ n' records, n.call parse c = some (n', records) := by
  cases c with
  | request t forwardedFor remote amount chain coins =>
      obtain ⟨⟨reply, f'⟩, hrequest⟩ := Option.isSome_iff_exists.mp
        (handleFaucetRequest_isSome hconfigured parse coins t forwardedFor remote amount chain)
      refine ⟨⟨f', n.mempool⟩,
        issuedRecord t amount reply (clientIp parse forwardedFor remote) f'.pending, ?_⟩
      rw [FaucetNode.call, hrequest]
      rfl
  | complete response => exact ⟨_, _, rfl⟩
  | sponsor wallet => exact ⟨_, _, rfl⟩
  | pool m => exact ⟨_, _, rfl⟩

theorem run_accounted {calls : List (FaucetCall W)}
    (hconfigured : n.faucet.enabled = true → W.treasuryBlinding.isSome)
    (h : Accounted now n.faucet log) (hclock : ∀ t ∈ calls.filterMap FaucetCall.now?, now ≤ t)
    (hmonotone : (calls.filterMap FaucetCall.now?).Pairwise (· ≤ ·)) :
    ∃ n' log' later, n.run parse log calls = some (n', log') ∧ Accounted later n'.faucet log' := by
  induction calls generalizing n now log with
  | nil => exact ⟨n, log, now, rfl, h⟩
  | cons c calls ih =>
      obtain ⟨n', records, hcall⟩ := call_isSome hconfigured parse c
      rw [List.filterMap_cons] at hclock hmonotone
      have hrun : ∀ later, (∀ t ∈ c.now?, now ≤ t) → c.now?.getD now = later →
          (∀ t ∈ calls.filterMap FaucetCall.now?, later ≤ t) →
          (calls.filterMap FaucetCall.now?).Pairwise (· ≤ ·) →
          ∃ n' log' later, n.run parse log (c :: calls) = some (n', log') ∧
            Accounted later n'.faucet log' := by
        intro later hc hlater hclock' hmonotone'
        have hafter := h.call hc hcall
        rw [hlater] at hafter
        have hconfigured' : n'.faucet.enabled = true → W.treasuryBlinding.isSome :=
          enabled_call hcall ▸ hconfigured
        obtain ⟨n'', log', last, hrest, haccounted⟩ := ih hconfigured' hafter hclock' hmonotone'
        refine ⟨n'', log', last, ?_, haccounted⟩
        rw [FaucetNode.run, hcall]
        exact hrest
      cases hnow : c.now? with
      | none =>
          rw [hnow] at hclock hmonotone
          refine hrun now ?_ ?_ hclock hmonotone
          · rw [hnow]
            exact nofun
          · rw [hnow]
            rfl
      | some t =>
          rw [hnow] at hclock hmonotone
          obtain ⟨hfirst, hmonotone'⟩ := List.pairwise_cons.mp hmonotone
          refine hrun t ?_ ?_ hfirst hmonotone'
          · rw [hnow]
            intro t' ht'
            obtain rfl := Option.some.inj ht'
            exact hclock t List.mem_cons_self
          · rw [hnow]
            rfl

/-- **What the faucet pays out.** However requests, completions, sponsored registrations and other business
of the mempool follow one another, with the treasury's secret in place no request panics, and: a slate is
handed out again only when the one before was taken out or is a minute old; each is taken out once at most,
and what is queued then is a valid transaction made of that slate; none is for more than the cap; and no
address is handed more than five within an hour, both ends included. -/
theorem faucet_payouts (parse : String → Option IpAddr) (n : FaucetNode P) (calls : List (FaucetCall W))
    (hconfigured : n.faucet.enabled = true → W.treasuryBlinding.isSome) (hfresh : n.faucet.Fresh)
    (hmonotone : (calls.filterMap FaucetCall.now?).Pairwise (· ≤ ·)) :
    ∃ n' log, n.run parse [] calls = some (n', log) ∧
      log.IsChain FaucetRecord.Follows ∧
      (∀ r ∈ log.head?, ∀ paid, r ≠ .taken paid) ∧
      (∀ r ∈ log, r.Capped) ∧
      ∀ ip t, ((issuedTo ip log).filter fun a => decide (t ≤ a ∧ a ≤ t + rateLimitWindow)).length ≤
        rateLimitMaxRequests := by
  obtain ⟨n', log, later, hrun, haccounted⟩ :=
    run_accounted hconfigured (hfresh.accounted 0) (fun t _ => Nat.zero_le t) hmonotone
  refine ⟨n', log, hrun, haccounted.follows, haccounted.opens, haccounted.capped, ?_⟩
  intro ip t
  obtain ⟨granted, hsub, hmetered⟩ := haccounted.metered ip
  have hwithin := hmetered.within t
  unfold during at hwithin
  -- the window of the source is closed on both sides, the limiter's half open
  refine ((hsub.filter _).length_le).trans ?_
  have hsame : (fun a => decide (t ≤ a ∧ a ≤ t + rateLimitWindow)) =
      fun a => decide (t ≤ a ∧ a < t + (rateLimitWindow + 1)) := by
    funext a
    rw [decide_eq_decide]
    omega
  rw [hsame]
  exact hwithin

end Call

namespace Devnet

/-- The faucet after a start, with the treasury. -/
def faucetNode : FaucetNode crypto :=
  ⟨{ keystore := faucet, store := faucetStore, pending := none, enabled := true, rateLimits := ∅ },
    Mempool.new⟩

/-- Two addresses of the documentation range. -/
def parseIp : String → Option IpAddr
  | "203.0.113.1" => some (.v4 0xCB007101)
  | "203.0.113.2" => some (.v4 0xCB007102)
  | _ => none

/-- A slate is abandoned: in the first minute another request is turned away, then it is replaced. The new
one is taken out, by something that is no slate. All come through one proxy. -/
def abandoned : List (FaucetCall wallet) :=
  let ask (now : ℕ) (header : String) : FaucetCall wallet :=
    .request now (some header) (some (.v4 0x0A000001)) 100 (ChainState.deliver [genesis])
      fun _ => slateCoins 5
  [ask 0 "203.0.113.1", ask (pendingTimeout - 1) "203.0.113.2, 10.0.0.1",
    ask pendingTimeout "203.0.113.2, 10.0.0.1", .complete none]

theorem abandoned_replaced :
    ∃ n' log, faucetNode.run parseIp [] abandoned = some (n', log) ∧
      issuedTo (.v4 0xCB007101) log = [0] ∧ issuedTo (.v4 0xCB007102) log = [pendingTimeout] ∧
      log.IsChain FaucetRecord.Follows := by
  have hissued : (faucetNode.run parseIp [] abandoned).all (fun r =>
      decide (issuedTo (.v4 0xCB007101) r.2 = [0] ∧
        issuedTo (.v4 0xCB007102) r.2 = [pendingTimeout])) = true := by
    decide +kernel
  obtain ⟨n', log, hrun, hfollows, -⟩ := faucet_payouts parseIp faucetNode abandoned (fun _ => rfl)
    ⟨rfl, rfl⟩ (by decide)
  rw [hrun, Option.all_some, decide_eq_true_eq] at hissued
  exact ⟨n', log, hrun, hissued.1, hissued.2, hfollows⟩

end Devnet

end Haze
