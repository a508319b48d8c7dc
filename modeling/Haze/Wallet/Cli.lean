import Haze.Lib.Checked
import Haze.Wallet.Slate

/-!
# The command-line wallet (`wallet/src/cli.rs`)

Each command loads the files of `wallet_data/`, does its work and saves what has changed. A slate that
waits for its answer is in a file of its own, which `pay` overwrites and `complete` deletes once the
node has taken the transaction.

When the node refuses the transaction or cannot be reached, the file stays, and the next `complete`
signs with the same nonce. An answer with other points gives another challenge, and two signatures
with one nonce give away the secret. `single_challenge` says what keeps the nonce to one challenge: a
slate is tried again with the points of the first answer.
-/

namespace Haze

open Checked

variable {P : Crypto} {W : WalletCrypto P}

/-! ## Commands

A command is given what the node answers and what it draws at random. The coins and the node's answer come
with the command, because the same `complete` may be run several times and be answered in another way each
time. -/

/-- The files of `wallet_data/`. -/
structure CliWallet (P : Crypto) where
  keystore : Keystore
  store : WalletStore P
  pendingSlate : Option (PendingSlate P)

/-- How a POST of a transaction ends. -/
inductive NodeAnswer where
  | success
  | rejected
  | unreachable
  deriving DecidableEq

inductive Command (W : WalletCrypto P) where
  | init (claimGenesis : Bool)
  | balance (utxos : Option (Finset (Commitment P)))
  | send (amount : UInt64) (utxos : Option (Finset (Commitment P))) (coins : ℕ → SendCoins W)
      (answer : NodeAnswer)
  | pay (amount : UInt64) (utxos : Option (Finset (Commitment P))) (coins : ℕ → SlateCoins W)
  | receive (slateIn : Option (Slate P)) (coins : ResponseCoins W)
  | complete (slateIn : Option (Slate P)) (answer : NodeAnswer)

namespace CliWallet

variable (wallet : CliWallet P)

/-- `FEE`. -/
def fee : UInt64 := 5

/-- `reconcile_with_node`; `none` when the node does not answer with a list of coins. -/
def reconcileWithNode (utxos : Option (Finset (Commitment P))) : CliWallet P :=
  match utxos with
  | some utxos => { wallet with store := wallet.store.reconcile utxos }
  | none => wallet

def init (claimGenesis : Bool) : CliWallet P :=
  if claimGenesis && !wallet.store.hasIndex genesisIndex then
    { wallet with
      store := wallet.store.addOutput genesisIndex 1_000_000 (Commitment.new 1_000_000 (42 : ℕ)) .confirmed }
  else wallet

def send (W : WalletCrypto P) (amount : UInt64) (utxos : Option (Finset (Commitment P)))
    (coins : ℕ → SendCoins W) (answer : NodeAnswer) : CliWallet P :=
  let wallet := wallet.reconcileWithNode utxos
  match planSend W coins wallet.keystore wallet.store amount fee with
  | some (.ok plan, keystore) =>
      let wallet := { wallet with keystore := keystore }
      if plan.transaction.validate && answer = .success then
        { wallet with store := plan.commit wallet.store }
      else wallet
  -- the indices of the attempts are not saved
  | _ => wallet

/-- The slate that `pay` makes, with the keystore after it. -/
def makesSlate (W : WalletCrypto P) (amount : UInt64) (utxos : Option (Finset (Commitment P)))
    (coins : ℕ → SlateCoins W) : Option (PendingSlate P × Keystore) :=
  let wallet := wallet.reconcileWithNode utxos
  match createSlate W coins wallet.keystore wallet.store amount fee with
  | some (.ok (_, pending), keystore) => some (pending, keystore)
  | _ => none

def pay (W : WalletCrypto P) (amount : UInt64) (utxos : Option (Finset (Commitment P)))
    (coins : ℕ → SlateCoins W) : CliWallet P :=
  match wallet.makesSlate W amount utxos coins with
  | some (pending, keystore) =>
      { wallet.reconcileWithNode utxos with keystore := keystore, pendingSlate := some pending }
  | none => wallet.reconcileWithNode utxos

def receive (W : WalletCrypto P) (slateIn : Option (Slate P)) (coins : ResponseCoins W) :
    CliWallet P :=
  match slateIn with
  | none => wallet
  | some incoming =>
      let ((_, owned), keystore) := respondToSlate W coins wallet.keystore incoming
      { wallet with
        keystore := keystore
        store := wallet.store.addOutput owned.index owned.value owned.commitment .pending }

/-- What `complete` posts: nothing without a slate that waits and an answer to it, and nothing that is
not valid. -/
def posts (slateIn : Option (Slate P)) : Option (PendingSlate P × Slate P × Transaction P) := do
  let pending ← wallet.pendingSlate
  let response ← slateIn
  match finalizeSlate pending response with
  | .error _ => none
  | .ok transaction => if transaction.validate then some (pending, response, transaction) else none

def complete (slateIn : Option (Slate P)) (answer : NodeAnswer) : CliWallet P :=
  match wallet.posts slateIn, answer with
  | some (pending, _), .success =>
      { wallet with store := pending.commit wallet.store, pendingSlate := none }
  | _, _ => wallet

end CliWallet

/-! ## Runs

A run also counts the slates and writes down each post with the number of its slate. None of this is in the
files: it is what the property speaks of. -/

/-- A transaction that `complete` has posted, for the slate of the given number. -/
structure SentSlate (P : Crypto) where
  slate : ℕ
  response : Slate P
  transaction : Transaction P

/-- The challenges that a transaction is signed for. -/
def Transaction.challenges (tx : Transaction P) : List P.Scalar :=
  tx.kernels.map fun k => k.signature.e

/-- The wallet with its history: how many slates it has made, of which the file has the last, and what
it has posted for them. -/
structure CliRun (P : Crypto) where
  wallet : CliWallet P
  slates : ℕ
  sent : List (SentSlate P)

namespace CliRun

def start (wallet : CliWallet P) : CliRun P := ⟨wallet, 0, []⟩

def step (W : WalletCrypto P) (r : CliRun P) : Command W → CliRun P
  | .init claimGenesis => { r with wallet := r.wallet.init claimGenesis }
  | .balance utxos => { r with wallet := r.wallet.reconcileWithNode utxos }
  | .send amount utxos coins answer => { r with wallet := r.wallet.send W amount utxos coins answer }
  | .pay amount utxos coins =>
      { r with
        wallet := r.wallet.pay W amount utxos coins
        slates := if (r.wallet.makesSlate W amount utxos coins).isSome then r.slates + 1 else r.slates }
  | .receive slateIn coins => { r with wallet := r.wallet.receive W slateIn coins }
  | .complete slateIn answer =>
      { r with
        wallet := r.wallet.complete slateIn answer
        sent := r.sent ++ (r.wallet.posts slateIn).toList.map fun posted =>
          ⟨r.slates, posted.2.1, posted.2.2⟩ }

/-- The nonce of a slate is used for one challenge. -/
def SingleChallenge (r : CliRun P) : Prop :=
  ∀ a ∈ r.sent, ∀ b ∈ r.sent, a.slate = b.slate →
    a.transaction.challenges = b.transaction.challenges

/-- A slate that has been posted before is posted again with the points of that answer. -/
def SamePoints (r : CliRun P) : Command W → Prop
  | .complete slateIn _ =>
      ∀ pending response transaction, r.wallet.posts slateIn = some (pending, response, transaction) →
        ∀ a ∈ r.sent, a.slate = r.slates →
          response.receiverExcessPoint = a.response.receiverExcessPoint ∧
            response.receiverNoncePoint = a.response.receiverNoncePoint
  | _ => True

/-! ## What a command does to the slate

There are only three cases. `complete` is the one command that posts for a slate, and it deletes the file of
the slate only after the node has taken the transaction. -/

variable {r : CliRun P}

/-- A command leaves the slate and what was posted alone, or makes the next slate, or posts a
transaction of the slate that waits, and keeps or deletes it. -/
theorem step_cases (r : CliRun P) (command : Command W) :
    ((r.step W command).wallet.pendingSlate = r.wallet.pendingSlate ∧
        (r.step W command).slates = r.slates ∧ (r.step W command).sent = r.sent) ∨
      ((r.step W command).slates = r.slates + 1 ∧ (r.step W command).sent = r.sent) ∨
      ∃ slateIn answer pending response transaction, command = .complete slateIn answer ∧
        r.wallet.posts slateIn = some (pending, response, transaction) ∧
        ((r.step W command).wallet.pendingSlate = r.wallet.pendingSlate ∨
          (r.step W command).wallet.pendingSlate = none) ∧
        (r.step W command).slates = r.slates ∧
        (r.step W command).sent = r.sent ++ [⟨r.slates, response, transaction⟩] := by
  have hreconcile : ∀ utxos, (r.wallet.reconcileWithNode utxos).pendingSlate = r.wallet.pendingSlate := by
    intro utxos
    cases utxos with
    | none => rfl
    | some utxos => rfl
  cases command with
  | init claimGenesis =>
      refine .inl ⟨?_, rfl, rfl⟩
      show (r.wallet.init claimGenesis).pendingSlate = _
      unfold CliWallet.init
      split
      · rfl
      · rfl
  | balance utxos => exact .inl ⟨hreconcile utxos, rfl, rfl⟩
  | send amount utxos coins answer =>
      refine .inl ⟨?_, rfl, rfl⟩
      show (r.wallet.send W amount utxos coins answer).pendingSlate = _
      unfold CliWallet.send
      dsimp only
      split
      · split
        · exact hreconcile utxos
        · exact hreconcile utxos
      · exact hreconcile utxos
  | pay amount utxos coins =>
      cases hmade : r.wallet.makesSlate W amount utxos coins with
      | none =>
          refine .inl ⟨?_, ?_, rfl⟩
          · show (r.wallet.pay W amount utxos coins).pendingSlate = _
            rw [CliWallet.pay, hmade]
            exact hreconcile utxos
          · simp [step, hmade]
      | some made =>
          refine .inr (.inl ⟨?_, rfl⟩)
          simp [step, hmade]
  | receive slateIn coins =>
      refine .inl ⟨?_, rfl, rfl⟩
      cases slateIn with
      | none => rfl
      | some incoming => rfl
  | complete slateIn answer =>
      cases hposts : r.wallet.posts slateIn with
      | none =>
          refine .inl ⟨?_, rfl, ?_⟩
          · simp [step, CliWallet.complete, hposts]
          · simp [step, hposts]
      | some posted =>
          obtain ⟨pending, response, transaction⟩ := posted
          refine .inr (.inr ⟨slateIn, answer, pending, response, transaction, rfl, hposts, ?_, rfl, ?_⟩)
          · cases answer with
            | success => exact .inr (by simp [step, CliWallet.complete, hposts])
            | rejected => exact .inl (by simp [step, CliWallet.complete, hposts])
            | unreachable => exact .inl (by simp [step, CliWallet.complete, hposts])
          · simp [step, hposts]

/-! ## One challenge for each slate

A kernel's challenge is a hash of the two sums of points and the fee, and the wallet's own part of each is
in the file. While the file stays, only the answer can change it, and the condition fixes the points of the
answer. -/

/-- What was posted for the slate that waits was made from it. -/
structure Recorded (r : CliRun P) : Prop where
  below : ∀ a ∈ r.sent, a.slate ≤ r.slates
  made : ∀ pending, r.wallet.pendingSlate = some pending → ∀ a ∈ r.sent, a.slate = r.slates →
    finalizeSlate pending a.response = .ok a.transaction
  single : r.SingleChallenge

theorem posts_some {wallet : CliWallet P} {slateIn : Option (Slate P)} {pending : PendingSlate P}
    {response : Slate P} {transaction : Transaction P}
    (h : wallet.posts slateIn = some (pending, response, transaction)) :
    wallet.pendingSlate = some pending ∧ slateIn = some response ∧
      finalizeSlate pending response = .ok transaction := by
  simp only [CliWallet.posts, Option.bind_eq_bind, Option.bind_eq_some_iff] at h
  obtain ⟨pending', hpending, response', hresponse, h⟩ := h
  split at h
  · cases h
  next tx hfinal =>
    split at h
    · obtain ⟨rfl, hrest⟩ := Prod.mk.inj (Option.some.inj h)
      obtain ⟨rfl, rfl⟩ := Prod.mk.inj hrest
      exact ⟨hpending, hresponse, hfinal⟩
    · cases h

/-- What a `complete` adds has its answer. -/
theorem mem_sent_complete {slateIn : Option (Slate P)} {answer : NodeAnswer} {a : SentSlate P}
    (h : a ∈ (r.step W (.complete slateIn answer)).sent) : a ∈ r.sent ∨ slateIn = some a.response := by
  rcases List.mem_append.mp h with h | h
  · exact .inl h
  · obtain ⟨posted, hposted, rfl⟩ := List.mem_map.mp h
    exact .inr (posts_some (Option.mem_toList.mp hposted)).2.1

/-- The challenge depends on the points of the answer only. -/
theorem challenges_eq {pending : PendingSlate P} {response response' : Slate P}
    {tx tx' : Transaction P} (h : finalizeSlate pending response = .ok tx)
    (h' : finalizeSlate pending response' = .ok tx')
    (hexcess : response.receiverExcessPoint = response'.receiverExcessPoint)
    (hnonce : response.receiverNoncePoint = response'.receiverNoncePoint) :
    tx.challenges = tx'.challenges := by
  obtain ⟨output, excess, nonce, partialSig, he, hn, rfl⟩ := finalizeSlate_ok h
  obtain ⟨output', excess', nonce', partialSig', he', hn', rfl⟩ := finalizeSlate_ok h'
  obtain rfl : excess = excess' := Option.some.inj (he.symm.trans (hexcess.trans he'))
  obtain rfl : nonce = nonce' := Option.some.inj (hn.symm.trans (hnonce.trans hn'))
  rfl

theorem Recorded.step (command : Command W) (h : Recorded r) (hpoints : r.SamePoints command) :
    Recorded (r.step W command) := by
  rcases r.step_cases command with ⟨hpending, hslates, hsent⟩ | ⟨hslates, hsent⟩ |
    ⟨slateIn, answer, pending, response, transaction, rfl, hposts, hpending, hslates, hsent⟩
  · refine ⟨?_, ?_, ?_⟩
    · rw [hsent, hslates]
      exact h.below
    · rw [hpending, hsent, hslates]
      exact h.made
    · rw [SingleChallenge, hsent]
      exact h.single
  · -- nothing has been posted for the new slate
    refine ⟨?_, ?_, ?_⟩
    · intro a ha
      rw [hsent] at ha
      rw [hslates]
      exact (h.below a ha).trans (Nat.le_succ _)
    · intro pending _ a ha hslate
      rw [hsent] at ha
      have hle := h.below a ha
      omega
    · rw [SingleChallenge, hsent]
      exact h.single
  -- posted again: what was posted before for this slate was made from the file that is still there
  · obtain ⟨hfile, -, hfinal⟩ := posts_some hposts
    have hsame : ∀ a ∈ r.sent, a.slate = r.slates →
        transaction.challenges = a.transaction.challenges := by
      intro a ha hslate
      obtain ⟨hexcess, hnonce⟩ := hpoints pending response transaction hposts a ha hslate
      exact challenges_eq hfinal (h.made pending hfile a ha hslate) hexcess hnonce
    refine ⟨?_, ?_, ?_⟩
    · rw [hsent, hslates, List.forall_mem_append]
      exact ⟨h.below, by simp⟩
    · intro pending' hpending' a ha hslate
      rw [hslates] at hslate
      have hfile' : r.wallet.pendingSlate = some pending' := by
        -- the file is the same one, or it is gone and nothing can be posted from it
        rcases hpending with hkept | hgone
        · exact hkept ▸ hpending'
        · rw [hgone] at hpending'
          cases hpending'
      rw [hsent, List.mem_append, List.mem_singleton] at ha
      rcases ha with ha | rfl
      · exact h.made pending' hfile' a ha hslate
      · obtain rfl : pending = pending' := Option.some.inj (hfile.symm.trans hfile')
        exact hfinal
    · intro a ha b hb hslate
      rw [hsent, List.mem_append, List.mem_singleton] at ha hb
      rcases ha with ha | rfl
      · rcases hb with hb | rfl
        · exact h.single a ha b hb hslate
        · exact (hsame a ha hslate).symm
      · rcases hb with hb | rfl
        · exact hsame b hb hslate.symm
        · rfl

theorem Recorded.start (wallet : CliWallet P) : Recorded (start wallet) := by
  refine ⟨?_, ?_, ?_⟩
  · intro a ha
    cases ha
  · intro pending _ a ha
    cases ha
  · intro a ha
    cases ha

/-- **A nonce is used for one challenge** in every run of commands in which a slate is tried again with
the points of its first answer only. -/
theorem single_challenge {wallet : CliWallet P} {commands : List (Command W)}
    (h : Guarded (step W) SamePoints (start wallet) commands) :
    SingleChallenge (commands.foldl (step W) (start wallet)) := by
  have hrecorded : Recorded (commands.foldl (step W) (start wallet)) := by
    refine Guarded.invariant ?_ h (Recorded.start wallet)
    intro r command hr hpoints
    exact hr.step command hpoints
  exact hrecorded.single

end CliRun

namespace Devnet

/-- The wallet of the payer before it has made a slate. -/
def payerWallet : CliWallet crypto := ⟨payer, payerStore, none⟩

/-- The receiver answers the payer's slate, with the given nonce. -/
def answered (nonce : BitVec 256) : Option (Slate crypto) :=
  payerSlate.bind fun made =>
    match made.1 with
    | .ok (slate, _) =>
        some (respondToSlate wallet ⟨coins, nonce⟩ ⟨natBytes 2, 0⟩ slate).1.1
    | .error _ => none

/-- The node refuses the transaction, and the payer completes the slate again with the second answer. -/
def retried (second : BitVec 256) : List (Command wallet) :=
  [.pay 100 none (fun _ => slateCoins 5), .complete (answered 6) .rejected,
    .complete (answered second) .success]

/-- The same answer gives the same challenge. -/
theorem retried_same :
    (((retried 6).foldl (CliRun.step wallet) (CliRun.start payerWallet)).sent.length = 2) ∧
      CliRun.SingleChallenge ((retried 6).foldl (CliRun.step wallet) (CliRun.start payerWallet)) := by
  refine ⟨by decide +kernel, ?_⟩
  apply CliRun.single_challenge
  refine ⟨trivial, ?_, ?_, trivial⟩
  · intro pending response transaction _ a ha
    cases ha
  · intro pending response transaction hposts a ha _
    obtain ⟨-, hanswer, -⟩ := CliRun.posts_some hposts
    rcases CliRun.mem_sent_complete ha with hold | hanswer'
    · cases hold
    · obtain rfl : response = a.response := Option.some.inj (hanswer.symm.trans hanswer')
      exact ⟨rfl, rfl⟩

/-- Another answer gives another. -/
theorem retried_other :
    ¬ CliRun.SingleChallenge ((retried 8).foldl (CliRun.step wallet) (CliRun.start payerWallet)) := by
  unfold CliRun.SingleChallenge
  decide +kernel

end Devnet

end Haze
