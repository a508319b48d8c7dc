import Haze.Lib.Mailbox
import Haze.Wallet.Hex

/-!
# The inbox (`api/src/inbox.rs`)

A relay between wallets. A post is queued under the text it is addressed to, which nobody parses. A poll
proves that the caller owns the key its text parses to, and drains the queue of this text. Since a key has
several spellings it has several queues, and a text that is no key has one that cannot be drained.

What the sender signs is the address, the kind and the payload with colons between them.
-/

namespace Haze

open Checked Mailbox

variable {P : Crypto}

/-- `MAX_MESSAGES_PER_PUBKEY`. -/
def maxMessagesPerPubkey : ℕ := 500

/-- `POLL_TIMESTAMP_WINDOW_SECS`. -/
def pollTimestampWindowSecs : UInt64 := 120

structure InboxMessage where
  fromPubkeyHex : String
  kind : String
  payloadJson : String
  signatureHex : String
  deriving DecidableEq

structure InboxPollQuery where
  timestamp : UInt64
  signatureHex : String
  deriving DecidableEq

/-- `InboxState`: the messages queued under each address. -/
abbrev InboxState := KeyedMap String (List InboxMessage)

/-- The statuses of `warp::http` that an error is answered with. -/
inductive StatusCode where
  | badRequest
  | unauthorized
  | tooManyRequests
  deriving DecidableEq

/-- The JSON of a reply. -/
inductive InboxReply where
  | error (status : StatusCode) (message : String)
  | delivered
  | messages (drained : List InboxMessage)
  deriving DecidableEq

variable (S : ScalarCodec P)

/-- The reply, and the inbox behind its mutex. Both decoders run before the mutex is taken, so a panic
leaves the inbox as it was. -/
def handlePostInbox (toPubkeyHex : String) (message : InboxMessage) (inbox : InboxState) :
    Except Panic (InboxReply × InboxState) := do
  let some fromPubkey ← Commitment.fromHex (P := P) message.fromPubkeyHex
    | return (.error .badRequest "invalid from_pubkey_hex", inbox)
  let some signature ← Signature.fromHex S message.signatureHex
    | return (.error .badRequest "invalid signature_hex", inbox)
  let msg := inboxPostSigningMessage toPubkeyHex message.kind message.payloadJson
  if !signature.verify msg fromPubkey then
    return (.error .unauthorized "signature does not match from_pubkey_hex for this message", inbox)
  let queue := (inbox.lookup toPubkeyHex).getD []
  -- `or_default` adds no entry where the queue is full
  if queue.length ≥ maxMessagesPerPubkey then
    return (.error .tooManyRequests "recipient inbox is full", inbox)
  return (.delivered, inbox.insert toPubkeyHex (queue ++ [message]))

/-- `handle_get_inbox`, with the clock it reads as an argument. -/
def handleGetInbox (now : UInt64) (pubkeyHex : String) (query : InboxPollQuery) (inbox : InboxState) :
    Except Panic (InboxReply × InboxState) := do
  let some pubkey ← Commitment.fromHex (P := P) pubkeyHex
    | return (.error .badRequest "invalid pubkey_hex", inbox)
  let some signature ← Signature.fromHex S query.signatureHex
    | return (.error .badRequest "invalid signature_hex", inbox)
  let drift := max now query.timestamp - min now query.timestamp
  if drift > pollTimestampWindowSecs then
    return (.error .unauthorized "poll timestamp too far from server time", inbox)
  let msg := inboxPollSigningMessage pubkeyHex query.timestamp
  if !signature.verify msg pubkey then
    return (.error .unauthorized "signature does not prove ownership of pubkey_hex", inbox)
  return (.messages ((inbox.lookup pubkeyHex).getD []), inbox.erase pubkeyHex)

/-! ## When a request goes through

A handler parses hex before it looks at anything else, and parsing can panic. So each request has three
ends: a panic, an error that leaves the mailboxes alone, or the step that the mailbox library describes. -/

/-- The sender's key and the signature parse, and the signature is over the message. -/
def WellSigned (toPubkeyHex : String) (message : InboxMessage) : Prop :=
  ∃ fromPubkey signature, Commitment.fromHex (P := P) message.fromPubkeyHex = .ok (some fromPubkey) ∧
    Signature.fromHex S message.signatureHex = .ok (some signature) ∧
    signature.verify (inboxPostSigningMessage toPubkeyHex message.kind message.payloadJson)
      fromPubkey = true

/-- A post that is well signed and finds room. -/
def Accepts (inbox : InboxState) (toPubkeyHex : String) (message : InboxMessage) : Prop :=
  WellSigned S toPubkeyHex message ∧ (queue inbox toPubkeyHex).length < maxMessagesPerPubkey

/-- A poll that proves ownership of its key, in time. -/
def Authorized (now : UInt64) (pubkeyHex : String) (query : InboxPollQuery) : Prop :=
  ∃ pubkey signature, Commitment.fromHex (P := P) pubkeyHex = .ok (some pubkey) ∧
    Signature.fromHex S query.signatureHex = .ok (some signature) ∧
    max now query.timestamp - min now query.timestamp ≤ pollTimestampWindowSecs ∧
    signature.verify (inboxPollSigningMessage pubkeyHex query.timestamp) pubkey = true

section

variable {S} {toPubkeyHex pubkeyHex : String} {message : InboxMessage} {query : InboxPollQuery}
  {now : UInt64} {inbox : InboxState}

theorem parse_cases {α : Type} (r : Except Panic (Option α)) :
    (∃ panic, r = .error panic) ∨ r = .ok none ∨ ∃ x, r = .ok (some x) := by
  cases r with
  | error panic => exact .inl ⟨panic, rfl⟩
  | ok r =>
      cases r with
      | none => exact .inr (.inl rfl)
      | some x => exact .inr (.inr ⟨x, rfl⟩)

theorem handlePostInbox_of_accepts (h : Accepts S inbox toPubkeyHex message) :
    handlePostInbox S toPubkeyHex message inbox =
      .ok (.delivered, step inbox (.posted toPubkeyHex message)) := by
  obtain ⟨⟨fromPubkey, signature, hfrom, hsignature, hverify⟩, hroom⟩ := h
  have hroom : ¬ ((inbox.lookup toPubkeyHex).getD []).length ≥ maxMessagesPerPubkey :=
    Nat.not_le_of_lt hroom
  unfold handlePostInbox
  rw [hfrom, hsignature]
  simp [hverify, hroom, step, queue, bind, Except.bind, pure, Except.pure]

/-- Any other post panics, or is answered with an error and dropped. -/
theorem handlePostInbox_of_not_accepts (h : ¬ Accepts S inbox toPubkeyHex message) :
    (∃ panic, handlePostInbox S toPubkeyHex message inbox = .error panic) ∨
      ∃ status text, handlePostInbox S toPubkeyHex message inbox = .ok (.error status text, inbox) := by
  unfold handlePostInbox
  -- the key, then the signature, then the check, then the room
  rcases parse_cases (Commitment.fromHex (P := P) message.fromPubkeyHex) with
    ⟨panic, hfrom⟩ | hfrom | ⟨fromPubkey, hfrom⟩
  · rw [hfrom]
    exact .inl ⟨panic, rfl⟩
  · rw [hfrom]
    exact .inr ⟨_, _, rfl⟩
  rcases parse_cases (Signature.fromHex S message.signatureHex) with
    ⟨panic, hsignature⟩ | hsignature | ⟨signature, hsignature⟩
  · rw [hfrom, hsignature]
    exact .inl ⟨panic, rfl⟩
  · rw [hfrom, hsignature]
    exact .inr ⟨_, _, rfl⟩
  rw [hfrom, hsignature]
  right
  by_cases hverify : signature.verify
      (inboxPostSigningMessage toPubkeyHex message.kind message.payloadJson) fromPubkey = true
  · have hfull : ((inbox.lookup toPubkeyHex).getD []).length ≥ maxMessagesPerPubkey := by
      by_contra hroom
      exact h ⟨⟨fromPubkey, signature, hfrom, hsignature, hverify⟩, Nat.lt_of_not_le hroom⟩
    refine ⟨.tooManyRequests, "recipient inbox is full", ?_⟩
    simp [hverify, hfull, bind, Except.bind, pure, Except.pure]
  · refine ⟨.unauthorized, "signature does not match from_pubkey_hex for this message", ?_⟩
    simp [hverify, bind, Except.bind, pure, Except.pure]

theorem delivered_iff : (∃ inbox', handlePostInbox S toPubkeyHex message inbox = .ok (.delivered, inbox')) ↔
    Accepts S inbox toPubkeyHex message := by
  constructor
  · rintro ⟨inbox', hdelivered⟩
    by_contra h
    rcases handlePostInbox_of_not_accepts h with ⟨_, hfails⟩ | ⟨_, _, hfails⟩
    · cases hfails.symm.trans hdelivered
    · cases hfails.symm.trans hdelivered
  · intro h
    exact ⟨_, handlePostInbox_of_accepts h⟩

theorem handleGetInbox_of_authorized (h : Authorized S now pubkeyHex query) :
    handleGetInbox S now pubkeyHex query inbox =
      .ok (.messages (queue inbox pubkeyHex), step inbox (.polled pubkeyHex)) := by
  obtain ⟨pubkey, signature, hpubkey, hsignature, hdrift, hverify⟩ := h
  unfold handleGetInbox
  rw [hpubkey, hsignature]
  simp [hverify, UInt64.not_lt.mpr hdrift, step, queue, bind, Except.bind, pure, Except.pure]

theorem handleGetInbox_of_not_authorized (h : ¬ Authorized S now pubkeyHex query) :
    (∃ panic, handleGetInbox S now pubkeyHex query inbox = .error panic) ∨
      ∃ status text, handleGetInbox S now pubkeyHex query inbox = .ok (.error status text, inbox) := by
  unfold handleGetInbox
  -- the key, then the signature, then the clock, then the check
  rcases parse_cases (Commitment.fromHex (P := P) pubkeyHex) with
    ⟨panic, hpubkey⟩ | hpubkey | ⟨pubkey, hpubkey⟩
  · rw [hpubkey]
    exact .inl ⟨panic, rfl⟩
  · rw [hpubkey]
    exact .inr ⟨_, _, rfl⟩
  rcases parse_cases (Signature.fromHex S query.signatureHex) with
    ⟨panic, hsignature⟩ | hsignature | ⟨signature, hsignature⟩
  · rw [hpubkey, hsignature]
    exact .inl ⟨panic, rfl⟩
  · rw [hpubkey, hsignature]
    exact .inr ⟨_, _, rfl⟩
  rw [hpubkey, hsignature]
  right
  by_cases hdrift : max now query.timestamp - min now query.timestamp > pollTimestampWindowSecs
  · refine ⟨.unauthorized, "poll timestamp too far from server time", ?_⟩
    simp [hdrift, bind, Except.bind, pure, Except.pure]
  · have hverify : ¬ signature.verify (inboxPollSigningMessage pubkeyHex query.timestamp) pubkey = true := by
      intro hverify
      exact h ⟨pubkey, signature, hpubkey, hsignature, UInt64.not_lt.mp hdrift, hverify⟩
    refine ⟨.unauthorized, "signature does not prove ownership of pubkey_hex", ?_⟩
    simp [hdrift, hverify, bind, Except.bind, pure, Except.pure]

end

/-! ## Runs

A run is any list of requests. Panics and errors leave no trace, so a run of the service is a run of the
mailboxes over the events that the callers see. -/

inductive InboxRequest where
  | post (toPubkeyHex : String) (message : InboxMessage)
  | poll (pubkeyHex : String) (query : InboxPollQuery) (now : UInt64)

def InboxRequest.handle (inbox : InboxState) : InboxRequest → Except Panic (InboxReply × InboxState)
  | .post toPubkeyHex message => handlePostInbox S toPubkeyHex message inbox
  | .poll pubkeyHex query now => handleGetInbox S now pubkeyHex query inbox

/-- What has happened to the mailboxes, as the callers see it. -/
def InboxRequest.event : InboxRequest → InboxReply → Option (Event String InboxMessage)
  | .post toPubkeyHex message, .delivered => some (.posted toPubkeyHex message)
  | .poll pubkeyHex _ _, .messages _ => some (.polled pubkeyHex)
  | _, _ => none

/-- The inbox, and the posts that were accepted and the polls that were answered so far. -/
structure InboxRun where
  inbox : InboxState
  history : List (Event String InboxMessage)

/-- `InboxState::new`, with nothing behind it. -/
def InboxRun.new : InboxRun := ⟨∅, []⟩

def InboxRun.step (r : InboxRun) (request : InboxRequest) : InboxRun :=
  match request.handle S r.inbox with
  | .ok (reply, inbox) => ⟨inbox, r.history ++ (request.event reply).toList⟩
  | .error _ => r

/-- The key that a text parses to. -/
def keyOf (hex : String) : Option (Commitment P) :=
  match Commitment.fromHex hex with
  | .ok key => key
  | .error _ => none

/-- A post that is accepted is addressed to a key, and an authorized poll of a key returns what was accepted
for the key since its last authorized poll, under whatever spelling; other polls return nothing. So a message
is returned once, by the first authorized poll after it. -/
def DeliversNext (r : InboxRun) : InboxRequest → Prop
  | .post toPubkeyHex message => ∀ inbox,
      handlePostInbox S toPubkeyHex message r.inbox = .ok (.delivered, inbox) →
        ∃ key, keyOf (P := P) toPubkeyHex = some key
  | .poll pubkeyHex query now =>
      (Authorized S now pubkeyHex query → ∀ key, keyOf (P := P) pubkeyHex = some key →
        ∃ inbox, handleGetInbox S now pubkeyHex query r.inbox =
          .ok (.messages ((waiting keyOf key r.history).map Prod.snd), inbox)) ∧
      (¬ Authorized S now pubkeyHex query → ∀ drained inbox,
        handleGetInbox S now pubkeyHex query r.inbox ≠ .ok (.messages drained, inbox))

/-- A post that is well signed and finds room has an address that parses, and a poll that proves ownership
finds nothing queued under another spelling of its key. -/
def SpeltAlike (r : InboxRun) : InboxRequest → Prop
  | .post toPubkeyHex message => Accepts S r.inbox toPubkeyHex message →
      ∃ key, keyOf (P := P) toPubkeyHex = some key
  | .poll pubkeyHex query now => Authorized S now pubkeyHex query →
      Alone (keyOf (P := P)) r.inbox pubkeyHex

section

variable {S} {r : InboxRun}

/-- What the run keeps: a queue holds what waits for its key under its spelling. -/
abbrev InboxRun.Sorted (P : Crypto) (r : InboxRun) : Prop :=
  Mailbox.Sorted (keyOf (P := P)) r.inbox r.history

/-- A request that fails leaves the run where it is. -/
theorem InboxRun.step_of_fails (request : InboxRequest)
    (h : (∃ panic, request.handle S r.inbox = .error panic) ∨
      ∃ status text, request.handle S r.inbox = .ok (.error status text, r.inbox)) :
    r.step S request = r := by
  unfold step
  rcases h with ⟨panic, h⟩ | ⟨status, text, h⟩
  · rw [h]
  · rw [h]
    cases request <;> simp [InboxRequest.event]

theorem InboxRun.step_of_accepts {toPubkeyHex : String} {message : InboxMessage}
    (h : Accepts S r.inbox toPubkeyHex message) : r.step S (.post toPubkeyHex message) =
      ⟨Mailbox.step r.inbox (.posted toPubkeyHex message),
        r.history ++ [.posted toPubkeyHex message]⟩ := by
  simp [step, InboxRequest.handle, handlePostInbox_of_accepts h, InboxRequest.event]

theorem InboxRun.step_of_authorized {pubkeyHex : String} {query : InboxPollQuery} {now : UInt64}
    (h : Authorized S now pubkeyHex query) : r.step S (.poll pubkeyHex query now) =
      ⟨Mailbox.step r.inbox (.polled pubkeyHex), r.history ++ [.polled pubkeyHex]⟩ := by
  simp [step, InboxRequest.handle, handleGetInbox_of_authorized h, InboxRequest.event]

theorem delivers_post_iff (toPubkeyHex : String) (message : InboxMessage) :
    DeliversNext S r (.post toPubkeyHex message) ↔ SpeltAlike S r (.post toPubkeyHex message) := by
  constructor
  · intro h haccepts
    obtain ⟨inbox, hdelivered⟩ := delivered_iff.mpr haccepts
    exact h inbox hdelivered
  · intro h inbox hdelivered
    exact h (delivered_iff.mp ⟨inbox, hdelivered⟩)

theorem delivers_poll_iff (hsorted : r.Sorted P) (pubkeyHex : String) (query : InboxPollQuery)
    (now : UInt64) :
    DeliversNext S r (.poll pubkeyHex query now) ↔ SpeltAlike S r (.poll pubkeyHex query now) := by
  constructor
  · rintro ⟨hreturns, -⟩ hauthorized
    refine (hsorted.queue_eq_waiting_iff pubkeyHex).mp ?_
    intro key hkey
    obtain ⟨inbox, hmessages⟩ := hreturns hauthorized key hkey
    have hreply := (handleGetInbox_of_authorized hauthorized).symm.trans hmessages
    exact InboxReply.messages.inj (Prod.mk.inj (Except.ok.inj hreply)).1
  · intro h
    constructor
    · intro hauthorized key hkey
      rw [← (hsorted.queue_eq_waiting_iff pubkeyHex).mpr (h hauthorized) key hkey]
      exact ⟨_, handleGetInbox_of_authorized hauthorized⟩
    · intro hauthorized drained inbox hmessages
      rcases handleGetInbox_of_not_authorized hauthorized with ⟨_, hfails⟩ | ⟨_, _, hfails⟩
      · cases hfails.symm.trans hmessages
      · cases hfails.symm.trans hmessages

theorem InboxRun.Sorted.step (hsorted : r.Sorted P) {request : InboxRequest}
    (h : SpeltAlike S r request) : (r.step S request).Sorted P := by
  cases request with
  | post toPubkeyHex message =>
      by_cases haccepts : Accepts S r.inbox toPubkeyHex message
      · rw [InboxRun.step_of_accepts haccepts]
        exact hsorted.posted toPubkeyHex message
      · rw [InboxRun.step_of_fails (.post toPubkeyHex message) (handlePostInbox_of_not_accepts haccepts)]
        exact hsorted
  | poll pubkeyHex query now =>
      by_cases hauthorized : Authorized S now pubkeyHex query
      · rw [InboxRun.step_of_authorized hauthorized]
        exact Mailbox.Sorted.polled hsorted (h hauthorized)
      · rw [InboxRun.step_of_fails (.poll pubkeyHex query now)
          (handleGetInbox_of_not_authorized hauthorized)]
        exact hsorted

end

/-- **Delivery.** In a run from the empty inbox every accepted message is returned by the next poll of its
key, and addressed to one, exactly if no poll meets a second spelling and no post a text that is no key. -/
theorem inbox_delivers_iff (requests : List InboxRequest) :
    Guarded (InboxRun.step S) (DeliversNext S) InboxRun.new requests ↔
      Guarded (InboxRun.step S) (SpeltAlike S) InboxRun.new requests := by
  have hiff : ∀ (r : InboxRun) request, r.Sorted P → (DeliversNext S r request ↔ SpeltAlike S r request) := by
    intro r request hsorted
    cases request with
    | post toPubkeyHex message => exact delivers_post_iff toPubkeyHex message
    | poll pubkeyHex query now => exact delivers_poll_iff hsorted pubkeyHex query now
  apply guarded_congr hiff
  · intro r request hsorted hdelivers
    exact hsorted.step ((hiff r request hsorted).mp hdelivers)
  · exact Mailbox.Sorted.nil

/-! ## What a signature covers

The signed text joins the address, the kind and the payload with colons, and none of the three is free of
colons. Two triples have the same text exactly when one is the other with a border moved to a different
colon. -/

/-- The three texts that a post is about. -/
@[ext] structure InboxContent where
  toPubkeyHex : String
  kind : String
  payloadJson : String
  deriving DecidableEq

namespace InboxContent

/-- What a message says when it is posted to an address. -/
def ofPost (toPubkeyHex : String) (message : InboxMessage) : InboxContent :=
  ⟨toPubkeyHex, message.kind, message.payloadJson⟩

def signingMessage (c : InboxContent) : List UInt8 :=
  inboxPostSigningMessage c.toPubkeyHex c.kind c.payloadJson

/-- The first text that ends at different colons ends at a later one in `c'`. -/
inductive Recut (c c' : InboxContent) : Prop where
  | toPubkeyHex (run : String) (hto : c'.toPubkeyHex = c.toPubkeyHex ++ ":" ++ run)
      (hrest : c.kind ++ ":" ++ c.payloadJson = run ++ ":" ++ c'.kind ++ ":" ++ c'.payloadJson)
  | kind (run : String) (hto : c'.toPubkeyHex = c.toPubkeyHex)
      (hkind : c'.kind = c.kind ++ ":" ++ run) (hrest : c.payloadJson = run ++ ":" ++ c'.payloadJson)

variable {c c' : InboxContent}

theorem signingMessage_eq_iff : c.signingMessage = c'.signingMessage ↔
    c.toPubkeyHex.toList ++ ':' :: (c.kind.toList ++ ':' :: c.payloadJson.toList) =
      c'.toPubkeyHex.toList ++ ':' :: (c'.kind.toList ++ ':' :: c'.payloadJson.toList) := by
  unfold signingMessage inboxPostSigningMessage
  rw [asBytes_injective.eq_iff, ← String.toList_inj]
  simp [String.toList_append]

theorem ne_append_colon (s run : String) : s ≠ s ++ ":" ++ run := by
  intro h
  have hlength := congrArg String.length h
  simp only [String.length_append] at hlength
  have hcolon : ":".length = 1 := rfl
  omega

theorem Recut.signingMessage_eq (h : Recut c c') : c.signingMessage = c'.signingMessage ∧ c ≠ c' := by
  cases h with
  | toPubkeyHex run hto hrest =>
      constructor
      · rw [signingMessage_eq_iff, hto]
        have hchars := congrArg String.toList hrest
        simp only [String.toList_append] at hchars ⊢
        simpa using hchars
      · rintro rfl
        exact ne_append_colon _ run hto
  | kind run hto hkind hrest =>
      constructor
      · rw [signingMessage_eq_iff, hto, hkind, hrest]
        simp [String.toList_append]
      · rintro rfl
        exact ne_append_colon _ run hkind

theorem recut_cases (h : c.signingMessage = c'.signingMessage) : c = c' ∨ Recut c c' ∨ Recut c' c := by
  rw [signingMessage_eq_iff] at h
  -- compare the two texts up to their first colon, and then the rest
  rcases Encoding.separated_cases h with ⟨hto, hrest⟩ | ⟨run, hto, hrest⟩ | ⟨run, hto, hrest⟩
  · rcases Encoding.separated_cases hrest with ⟨hkind, hpayload⟩ | ⟨run, hkind, hpayload⟩ |
      ⟨run, hkind, hpayload⟩
    · left
      exact InboxContent.ext (String.toList_inj.mp hto) (String.toList_inj.mp hkind)
        (String.toList_inj.mp hpayload)
    · refine .inr (.inl (.kind (String.ofList run) (String.toList_inj.mp hto).symm ?_ ?_))
      · apply String.toList_inj.mp
        simp [hkind]
      · apply String.toList_inj.mp
        simp [hpayload]
    · refine .inr (.inr (.kind (String.ofList run) (String.toList_inj.mp hto) ?_ ?_))
      · apply String.toList_inj.mp
        simp [hkind]
      · apply String.toList_inj.mp
        simp [hpayload]
  · refine .inr (.inl (.toPubkeyHex (String.ofList run) ?_ ?_))
    · apply String.toList_inj.mp
      simp [hto]
    · apply String.toList_inj.mp
      simp [hrest]
  · refine .inr (.inr (.toPubkeyHex (String.ofList run) ?_ ?_))
    · apply String.toList_inj.mp
      simp [hto]
    · apply String.toList_inj.mp
      simp [hrest]

/-- It takes an address or a kind with a colon. -/
theorem not_recut_of_colonFree (hto : ':' ∉ c'.toPubkeyHex.toList) (hkind : ':' ∉ c'.kind.toList) :
    ¬ Recut c c' := by
  intro h
  cases h with
  | toPubkeyHex run hlonger =>
      apply hto
      rw [hlonger]
      simp [String.toList_append]
  | kind run _ hlonger =>
      apply hkind
      rw [hlonger]
      simp [String.toList_append]

end InboxContent

open InboxContent in
/-- **What a signature binds.** Two posts that are accepted and sign the same bytes say the same, exactly
if neither is the other with its texts cut at other colons. -/
theorem inbox_binds_iff (inbox inbox' : InboxState) (toPubkeyHex toPubkeyHex' : String)
    (message message' : InboxMessage) :
    ((∃ after, handlePostInbox S toPubkeyHex message inbox = .ok (.delivered, after)) →
      (∃ after, handlePostInbox S toPubkeyHex' message' inbox' = .ok (.delivered, after)) →
      inboxPostSigningMessage toPubkeyHex message.kind message.payloadJson =
        inboxPostSigningMessage toPubkeyHex' message'.kind message'.payloadJson →
      ofPost toPubkeyHex message = ofPost toPubkeyHex' message') ↔
    (Accepts S inbox toPubkeyHex message → Accepts S inbox' toPubkeyHex' message' →
      ¬ Recut (ofPost toPubkeyHex message) (ofPost toPubkeyHex' message') ∧
        ¬ Recut (ofPost toPubkeyHex' message') (ofPost toPubkeyHex message)) := by
  have hbinds : ((ofPost toPubkeyHex message).signingMessage =
        (ofPost toPubkeyHex' message').signingMessage →
      ofPost toPubkeyHex message = ofPost toPubkeyHex' message') ↔
      ¬ Recut (ofPost toPubkeyHex message) (ofPost toPubkeyHex' message') ∧
        ¬ Recut (ofPost toPubkeyHex' message') (ofPost toPubkeyHex message) :=
    Encoding.binds_iff (fun _ _ => Recut.signingMessage_eq) recut_cases
  rw [delivered_iff, delivered_iff, ← hbinds]
  rfl

/-! ## Signed requests

What the owner of a key would send. Such requests pass the checks for every key, every text and every time
within the window, so the conditions above can be met. -/

/-- A message as the owner of a key posts it. -/
def InboxMessage.sign (toPubkeyHex kind payloadJson : String) (secretKey nonce : P.Scalar) :
    InboxMessage where
  fromPubkeyHex := (⟨secretKey • P.BBlinding⟩ : Commitment P).toHex
  kind := kind
  payloadJson := payloadJson
  signatureHex :=
    (Signature.sign (inboxPostSigningMessage toPubkeyHex kind payloadJson) secretKey nonce).toHex

/-- A poll as the owner of a key signs it. -/
def InboxPollQuery.sign (pubkeyHex : String) (timestamp : UInt64) (secretKey nonce : P.Scalar) :
    InboxPollQuery where
  timestamp := timestamp
  signatureHex := (Signature.sign (inboxPollSigningMessage pubkeyHex timestamp) secretKey nonce).toHex

section

variable {S} {secretKey nonce : P.Scalar}

theorem wellSigned_sign {toPubkeyHex kind payloadJson : String} {sig : Signature P}
    (hsig : sig = Signature.sign (inboxPostSigningMessage toPubkeyHex kind payloadJson) secretKey nonce)
    (hs : S.IsCanonical sig.s) (he : S.IsCanonical sig.e) :
    WellSigned S toPubkeyHex (InboxMessage.sign toPubkeyHex kind payloadJson secretKey nonce) := by
  subst hsig
  exact ⟨_, _, Commitment.fromHex_toHex _, Signature.fromHex_toHex S hs he, Signature.verify_sign _ _ _⟩

theorem authorized_sign {timestamp : UInt64} {pubkey : Commitment P} {sig : Signature P}
    (hpubkey : pubkey = ⟨secretKey • P.BBlinding⟩)
    (hsig : sig = Signature.sign (inboxPollSigningMessage pubkey.toHex timestamp) secretKey nonce)
    (hs : S.IsCanonical sig.s) (he : S.IsCanonical sig.e) :
    Authorized S timestamp pubkey.toHex
      (InboxPollQuery.sign pubkey.toHex timestamp secretKey nonce) := by
  subst hpubkey hsig
  refine ⟨_, _, Commitment.fromHex_toHex _, Signature.fromHex_toHex S hs he, ?_, Signature.verify_sign _ _ _⟩
  have hmax : max timestamp timestamp = timestamp := ite_self timestamp
  have hmin : min timestamp timestamp = timestamp := ite_self timestamp
  show max timestamp timestamp - min timestamp timestamp ≤ pollTimestampWindowSecs
  rw [hmax, hmin, UInt64.sub_self]
  decide

end

/-! ## Posts on the devnet

Two mailboxes of the devnet, and one of them under its address in capitals. -/

namespace Devnet

/-- A message signed with the secret 1. -/
def inboxMessage (toPubkeyHex kind payloadJson : String) : InboxMessage :=
  InboxMessage.sign (P := crypto) toPubkeyHex kind payloadJson (1 : BitVec 256) (5 : BitVec 256)

/-- The key of the secret 10. -/
def inboxKey : Commitment crypto := ⟨(10 : BitVec 256) * BitVec.ofNat 256 (2 ^ 64)⟩

def inboxKeyCapitals : String := "00000000000000000A0000000000000000000000000000000000000000000000"

def inboxPoll : InboxPollQuery :=
  InboxPollQuery.sign (P := crypto) inboxKey.toHex 18 (10 : BitVec 256) (5 : BitVec 256)

/-- A message whose signature is made of canonical scalars finds an empty inbox open. -/
theorem accepts_inboxMessage {toPubkeyHex kind payloadJson : String} {sig : Signature crypto}
    (hsig : sig = Signature.sign (P := crypto) (inboxPostSigningMessage toPubkeyHex kind payloadJson)
      (1 : BitVec 256) (5 : BitVec 256))
    (hcanonical : BitVec.toNat sig.s < groupOrder ∧ BitVec.toNat sig.e < groupOrder) :
    Accepts scalarCodec ∅ toPubkeyHex (inboxMessage toPubkeyHex kind payloadJson) :=
  ⟨wellSigned_sign hsig hcanonical.1 hcanonical.2, by simp [queue, maxMessagesPerPubkey]⟩

theorem accepts_capitals :
    Accepts scalarCodec ∅ inboxKeyCapitals (inboxMessage inboxKeyCapitals "request" "7") := by
  apply accepts_inboxMessage rfl
  decide +kernel

theorem accepts_bob : Accepts scalarCodec ∅ "bob" (inboxMessage "bob" "request" "2") := by
  apply accepts_inboxMessage rfl
  decide +kernel

theorem authorized_inboxPoll : Authorized scalarCodec 18 inboxKey.toHex inboxPoll := by
  refine authorized_sign rfl rfl ?_ ?_
  · show BitVec.toNat _ < groupOrder
    decide +kernel
  · show BitVec.toNat _ < groupOrder
    decide +kernel

/-- A message to a key in capitals is not returned to the key in small letters, and a message to no key at
all is accepted. -/
theorem inbox_keeps_messages_back :
    ¬ Guarded (InboxRun.step scalarCodec) (DeliversNext scalarCodec) InboxRun.new
        [.post inboxKeyCapitals (inboxMessage inboxKeyCapitals "request" "7"),
          .poll inboxKey.toHex inboxPoll 18] ∧
      ¬ Guarded (InboxRun.step scalarCodec) (DeliversNext scalarCodec) InboxRun.new
        [.post "bob" (inboxMessage "bob" "request" "2")] := by
  constructor
  · rintro ⟨-, hpoll, -⟩
    -- the message waits for the key, and the queue of the small letters is empty
    have hstep := InboxRun.step_of_accepts (r := InboxRun.new) accepts_capitals
    have hspelt : keyOf (P := crypto) inboxKeyCapitals = some inboxKey := rfl
    have hkey : keyOf (P := crypto) inboxKey.toHex = some inboxKey := by
      rw [keyOf, Commitment.fromHex_toHex]
    have hne : inboxKey.toHex ≠ inboxKeyCapitals := by decide +kernel
    rw [hstep] at hpoll
    obtain ⟨inbox, hmessages⟩ := hpoll.1 authorized_inboxPoll inboxKey hkey
    have hreply := (handleGetInbox_of_authorized authorized_inboxPoll).symm.trans hmessages
    have hdrained := InboxReply.messages.inj (Prod.mk.inj (Except.ok.inj hreply)).1
    rw [queue_posted, if_neg hne, waiting_posted, if_pos hspelt, List.map_append] at hdrained
    exact List.append_ne_nil_of_right_ne_nil _ (List.cons_ne_nil _ _) hdrained.symm
  · rintro ⟨hpost, -⟩
    obtain ⟨inbox, hdelivered⟩ := delivered_iff.mpr accepts_bob
    obtain ⟨key, hkey⟩ := hpost inbox hdelivered
    have hnone : keyOf (P := crypto) "bob" = none := rfl
    cases hnone.symm.trans hkey

/-- A request to a key, and the same cut at the colon of its payload. -/
def inboxRequest : InboxMessage :=
  inboxMessage inboxKey.toHex "request" "\x7b\"value\":5\x7d"

def inboxRequestRecut : InboxMessage :=
  { inboxRequest with kind := "request:\x7b\"value\"", payloadJson := "5\x7d" }

theorem accepts_inboxRequest : Accepts scalarCodec ∅ inboxKey.toHex inboxRequest := by
  apply accepts_inboxMessage rfl
  decide +kernel

theorem signingMessage_inboxRequestRecut :
    inboxPostSigningMessage inboxKey.toHex inboxRequest.kind inboxRequest.payloadJson =
      inboxPostSigningMessage inboxKey.toHex inboxRequestRecut.kind inboxRequestRecut.payloadJson := by
  decide +kernel

theorem accepts_inboxRequestRecut : Accepts scalarCodec ∅ inboxKey.toHex inboxRequestRecut := by
  obtain ⟨⟨fromPubkey, signature, hfrom, hsignature, hverify⟩, -⟩ := accepts_inboxRequest
  refine ⟨⟨fromPubkey, signature, hfrom, hsignature, ?_⟩, by decide⟩
  rwa [signingMessage_inboxRequestRecut] at hverify

/-- Under one signature a request to a key is accepted with another kind and payload. -/
theorem inboxRequest_not_bound :
    ¬ ((∃ after, handlePostInbox scalarCodec inboxKey.toHex inboxRequest ∅ = .ok (.delivered, after)) →
        (∃ after, handlePostInbox scalarCodec inboxKey.toHex inboxRequestRecut ∅ =
          .ok (.delivered, after)) →
        inboxPostSigningMessage inboxKey.toHex inboxRequest.kind inboxRequest.payloadJson =
          inboxPostSigningMessage inboxKey.toHex inboxRequestRecut.kind inboxRequestRecut.payloadJson →
        InboxContent.ofPost inboxKey.toHex inboxRequest =
          InboxContent.ofPost inboxKey.toHex inboxRequestRecut) := by
  intro hbinds
  have hsame := hbinds (delivered_iff.mpr accepts_inboxRequest)
    (delivered_iff.mpr accepts_inboxRequestRecut) signingMessage_inboxRequestRecut
  have hkind : "request" = "request:\x7b\"value\"" := congrArg InboxContent.kind hsame
  exact absurd hkind (by decide)

end Devnet

end Haze
