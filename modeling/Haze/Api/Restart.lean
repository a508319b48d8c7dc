import Haze.Api.Payouts
import Haze.Api.Scan
import Haze.Chain.Range
import Haze.P2p.Relay
import Mathlib.Data.Finset.Sort
import Mathlib.Data.List.TakeWhile

/-!
# The faucet after a restart (`api/src/faucet.rs`)

The faucet keeps its ledger in memory. What is left of it when the process ends is the secret of the
treasury and the chain: the seed of the keystore is a hash of the secret, and every output the keystore
makes carries a note with its index and its value, sealed under a key of that seed. The treasury's own
output has no note, so it is entered by hand.

A ledger that is built from these two is confirmed in exactly the treasury, while it is unspent, and the
unspent outputs of the keystore on the active chain. The change of a payment that an earlier process has
made is among them once it is mined.
-/

namespace Haze

variable {P : Crypto}

/-! ## Starting

The faucet's ledger is not stored. At a start it is put together again from the treasury's secret: the
treasury output itself, and whatever a scan of the node's own chain finds with the keystore derived from
that secret. -/

/-- `faucet_keystore_seed`. -/
def faucetKeystoreSeed (W : WalletCrypto P) (secret : P.Scalar) : Bytes32 :=
  (W.sha512 (asBytes "Haze Faucet Keystore Seed" ++ (P.scalarBytes secret).toList)).take 32

/-- `usize::MAX`. -/
def usizeMax : ℕ := 2 ^ 64 - 1

/-- `utxo_hex`, the texts of the coins. -/
def ChainState.utxoHex (chain : ChainState P) : List String :=
  (chain.utxos.image Commitment.toHex).sort

section Model

variable (N : NoteCrypto P)

/-- `recover_faucet_change`. -/
def recoverFaucetChange (keystore : Keystore) (store : WalletStore P) (chain : ChainState P) :
    Except Panic (Keystore × WalletStore P) := do
  let blocks := (chain.getBlocksFrom 0 usizeMax).1
  let scanEntries := ((blocks.flatMap Block.allOutputs).filter fun o => !o.note.isEmpty).map
    Output.scanEntry
  let (recovered, keystore) ← recoverFromChain N keystore chain.utxoHex scanEntries
  let store := recovered.store.spendable.foldl (fun store o =>
    store.addOutput o.index o.value o.commitment .confirmed) store
  return (keystore, store)

/-- `FaucetState::new`. Without the right secret the faucet is off; `generated` is its keystore when there
is no secret at all. -/
def FaucetService.new (generated : Keystore) (treasuryOutput : Commitment P) (chain : ChainState P) :
    Except Panic (FaucetService P) := do
  match N.treasuryBlinding with
  | none => return ⟨⟨generated, .new⟩, none, false, ∅⟩
  | some secret =>
      let keystore : Keystore := ⟨faucetKeystoreSeed N.toWalletCrypto secret, 0⟩
      let commitment := Commitment.new treasuryAllocation secret
      if commitment ≠ treasuryOutput then return ⟨⟨keystore, .new⟩, none, false, ∅⟩
      else
        let store := WalletStore.new.addOutput faucetIndex treasuryAllocation commitment .confirmed
        let (keystore, store) ← recoverFaucetChange N keystore store chain
        return ⟨⟨keystore, store.reconcile chain.utxos⟩, none, true, ∅⟩

end Model

/-! ## What is found

The scan asks for all blocks from height 0 and enters each output whose note opens under the keystore and
which is unspent. That is `recover_from_chain` of the wallets, run against the node's own state. -/

section Found

open ChainState

variable {N : NoteCrypto P} {D : Block P → Prop} {s : ChainState P} {chain : List (Block P)}
  {keystore : Keystore} {out : Output P} {index : UInt32} {value : UInt64} {o : OwnedOutput P}

theorem mem_utxoHex {c : Commitment P} : c.toHex ∈ s.utxoHex ↔ c ∈ s.utxos := by
  rw [ChainState.utxoHex, Finset.mem_sort, Finset.mem_image]
  constructor
  · rintro ⟨c', hc', heq⟩
    rwa [← Commitment.toHex_injective heq]
  · exact fun hc => ⟨c, hc, rfl⟩

/-- The whole active chain is scanned. -/
theorem getBlocksFrom_all (hD : DistinctHashes D) (h : Tracks D s chain)
    (hheight : s.currentHeight.toNat < usizeMax) : (s.getBlocksFrom 0 usizeMax).1 = chain.reverse := by
  have hall : chain.takeWhile (fun b => decide ((0 : UInt64) ≤ b.height)) = chain := by
    rw [List.takeWhile_eq_self_iff]
    exact fun b _ => decide_eq_true UInt64.zero_le
  have hlength := h.linked.length_le_height
  rw [h.getBlocksFrom_eq hD, hall]
  apply List.take_of_length_le
  rw [List.length_reverse]
  omega

/-- The entries of the scan are the outputs of the active chain that have notes. -/
theorem mem_scanEntries (hD : DistinctHashes D) (h : Tracks D s chain)
    (hheight : s.currentHeight.toNat < usizeMax) (entry : ScanEntry) :
    entry ∈ ((((s.getBlocksFrom 0 usizeMax).1.flatMap Block.allOutputs).filter
        fun o => !o.note.isEmpty).map Output.scanEntry) ↔
      ∃ out, Served s out ∧ out.note ≠ [] ∧ out.scanEntry = entry := by
  rw [getBlocksFrom_all hD h hheight]
  simp only [List.mem_map, List.mem_filter, List.mem_flatMap, List.mem_reverse, Served,
    h.activeChain_eq hD]
  constructor
  · rintro ⟨out, ⟨⟨b, hb, hout⟩, hnote⟩, rfl⟩
    exact ⟨out, ⟨b, hb, hout⟩, by simpa using hnote, rfl⟩
  · rintro ⟨out, ⟨b, hb, hout⟩, hnote, rfl⟩
    exact ⟨out, ⟨⟨b, hb, hout⟩, by simpa using hnote⟩, rfl⟩

/-- An output of the keystore has a note. -/
theorem note_ne_nil_of_holds (h : out.scanEntry.Holds N (keystore.noteKey N.toWalletCrypto)
    (keystore.deriveBlinding N.toWalletCrypto) index value) : out.note ≠ [] :=
  Owns.note_ne_nil ⟨value, h⟩

theorem seed_ensureNextIndexAtLeast (keystore : Keystore) (min : UInt32) :
    (keystore.ensureNextIndexAtLeast min).seed = keystore.seed := by
  unfold Keystore.ensureNextIndexAtLeast
  split <;> rfl

/-- What is entered one by one. -/
theorem outputs_foldl_addOutput (os : List (OwnedOutput P)) (store : WalletStore P) :
    (os.foldl (fun store o => store.addOutput o.index o.value o.commitment .confirmed) store).outputs =
      store.outputs ++ os.map fun o => { o with status := .confirmed } := by
  induction os generalizing store with
  | nil => exact (List.append_nil _).symm
  | cons o os ih =>
      rw [List.foldl_cons, ih, List.map_cons, WalletStore.addOutput, List.append_assoc]
      rfl

/-- The output is one of the keystore's: it is on the active chain and unspent, and its note gives the
index and the value. -/
structure Recoverable (N : NoteCrypto P) (keystore : Keystore) (s : ChainState P) (o : OwnedOutput P) :
    Prop where
  unspent : o.commitment ∈ s.utxos
  served : ∃ out, Served s out ∧ out.commitment = o.commitment ∧
    out.scanEntry.Holds N (keystore.noteKey N.toWalletCrypto) (keystore.deriveBlinding N.toWalletCrypto)
      o.index o.value

/-- What a scan enters are the outputs that can be recovered. -/
theorem mem_restored {entries : List ScanEntry} {acc : Recovering P}
    (h : Tally N keystore s.utxoHex entries acc)
    (hentries : ∀ entry, entry ∈ entries ↔ ∃ out, Served s out ∧ out.note ≠ [] ∧ out.scanEntry = entry) :
    o ∈ acc.store.outputs ↔ o.status = .confirmed ∧ Recoverable N keystore s o := by
  rw [h.outputs]
  simp only [List.mem_map, List.mem_filterMap]
  -- from an entry to the output it was made of, and back
  constructor
  · rintro ⟨⟨index, value⟩, ⟨entry, hentry, hfound⟩, rfl⟩
    obtain ⟨out, hserved, -, rfl⟩ := (hentries entry).mp hentry
    obtain ⟨hunspent, hholds⟩ := ScanEntry.ownedUnspent_eq_some_iff.mp hfound
    have hcommitment := Commitment.toHex_injective hholds.commits
    have hunspent := mem_utxoHex.mp hunspent
    rw [hcommitment] at hunspent
    exact ⟨rfl, hunspent, out, hserved, hcommitment, hholds⟩
  · rintro ⟨hconfirmed, hunspent, out, hserved, hcommitment, hholds⟩
    refine ⟨(o.index, o.value), ⟨out.scanEntry, (hentries _).mpr ?_, ?_⟩, ?_⟩
    · exact ⟨out, hserved, note_ne_nil_of_holds hholds, rfl⟩
    · rw [← hcommitment] at hunspent
      exact ScanEntry.ownedUnspent_eq_some_iff.mpr ⟨mem_utxoHex.mpr hunspent, hholds⟩
    · obtain ⟨index, value, commitment, status⟩ := o
      obtain rfl : status = .confirmed := hconfirmed
      obtain rfl : out.commitment = commitment := hcommitment
      have hcommits := Commitment.toHex_injective hholds.commits
      rw [hcommits]
      rfl

/-- A scan of the chain enters the outputs of the keystore that can be recovered, and puts the next index
past all that were served. -/
theorem recoverFaucetChange_of_tracks (hD : DistinctHashes D) (h : Tracks D s chain)
    (hheight : s.currentHeight.toNat < usizeMax) (keystore : Keystore) (store : WalletStore P) :
    ∃ keystore' restored, recoverFaucetChange N keystore store s =
        .ok (keystore', ⟨store.outputs ++ restored⟩) ∧
      keystore'.seed = keystore.seed ∧
      (∀ o, o ∈ restored ↔ o.status = .confirmed ∧ Recoverable N keystore s o) ∧
      ((∀ out, Served s out → ∀ index, Owns N keystore out index → index.toNat < 2 ^ 32 - 1) →
        ∀ out, Served s out → ∀ index, Owns N keystore out index → index < keystore'.nextIndex) := by
  have hentries := mem_scanEntries hD h hheight
  generalize hgen : ((((s.getBlocksFrom 0 usizeMax).1.flatMap Block.allOutputs).filter
    fun o => !o.note.isEmpty).map Output.scanEntry) = entries at hentries
  have hdecodes : ∀ entry ∈ entries, entry.Decodes := by
    intro entry hentry
    obtain ⟨out, -, -, rfl⟩ := (hentries entry).mp hentry
    exact ⟨_, hexDecode_hexEncode out.note⟩
  have htally : Tally N keystore s.utxoHex entries _ := tally_recoverNext entries
  generalize hacc : entries.foldl (recoverNext N keystore s.utxoHex) ⟨.new, none, 0, 0⟩ = acc at htally
  -- the tally of the scan says which outputs are entered and which index is the largest seen
  have hrecovered := fun o => mem_restored htally hentries (o := o)
  refine ⟨acc.maxIndexSeen.elim keystore fun m => keystore.ensureNextIndexAtLeast (m + 1),
    acc.store.spendable.map fun o => { o with status := .confirmed }, ?_, ?_, ?_, ?_⟩
  · rw [recoverFaucetChange, hgen, recoverFromChain_ok_iff.mpr ⟨hdecodes, _, hacc.symm, rfl, rfl⟩,
      ← outputs_foldl_addOutput]
    rfl
  · cases acc.maxIndexSeen with
    | none => rfl
    | some m => exact seed_ensureNextIndexAtLeast _ _
  -- the ledger holds what was recovered, confirmed
  · intro o
    rw [← hrecovered, List.mem_map]
    constructor
    · rintro ⟨o', ho', rfl⟩
      obtain ⟨ho', hstatus⟩ := WalletStore.mem_spendable.mp ho'
      obtain ⟨index, value, commitment, status⟩ := o'
      obtain rfl : status = .confirmed := hstatus
      exact ho'
    · intro ho
      obtain ⟨hstatus, -⟩ := (hrecovered o).mp ho
      refine ⟨o, WalletStore.mem_spendable.mpr ⟨ho, hstatus⟩, ?_⟩
      obtain ⟨index, value, commitment, status⟩ := o
      obtain rfl : status = .confirmed := hstatus
      rfl
  -- every index seen is below the next one, unless an owned index leaves no room above it
  · intro hfits out hserved index howns
    have howned : ∀ {out : Output P} {index : UInt32}, Owns N keystore out index → Served s out →
        out.scanEntry ∈ entries :=
      fun howns hserved => (hentries _).mpr ⟨_, hserved, howns.note_ne_nil, rfl⟩
    obtain ⟨value, hholds⟩ := id howns
    refine lt_nextIndex htally ?_ (howned howns hserved) (ScanEntry.owned_eq_some_iff.mpr hholds)
    intro entry hentry index' value' howned'
    obtain ⟨out', hserved', -, rfl⟩ := (hentries entry).mp hentry
    exact hfits out' hserved' index' ⟨value', ScanEntry.owned_eq_some_iff.mp howned'⟩

end Found

/-! ## What is lost

What survives is the change of earlier payments: its note opens under the same seed, so it is found as soon
as it is on the chain. Change that was never mined is not found, and nothing is lost with it. -/

section Restarted

open ChainState

variable {N : NoteCrypto P} {s : ChainState P} {keystore : Keystore}

/-- The change of a payment can be recovered once it is mined, until it is spent. -/
theorem recoverable_change {maker maker' : Keystore} {coins : OutputCoins N.toWalletCrypto}
    {value : UInt64} {blinding : P.Scalar} {change : ChangeInfo P} (hseed : maker.seed = keystore.seed)
    (h : makeChange N.toWalletCrypto coins maker value = (some change, blinding, maker'))
    (hserved : Served s change.output) (hunspent : change.output.commitment ∈ s.utxos) :
    Recoverable N keystore s ⟨change.index, change.value, change.output.commitment, .confirmed⟩ := by
  refine ⟨hunspent, change.output, hserved, rfl, ?_⟩
  -- the keys depend on the seed alone
  obtain ⟨seed, next⟩ := keystore
  obtain ⟨seed', next'⟩ := maker
  obtain rfl : seed' = seed := hseed
  unfold makeChange at h
  split at h
  · obtain ⟨hchange, -⟩ := Prod.mk.inj h
    obtain rfl := Option.some.inj hchange
    exact holds_makeOutput coins _ _ _ _
  · cases h

/-- The keystore of the treasury's secret, as it is before anything is recovered. -/
def treasuryKeystore (N : NoteCrypto P) (secret : P.Scalar) : Keystore :=
  ⟨faucetKeystoreSeed N.toWalletCrypto secret, 0⟩

/-- A faucet that has been started with the treasury's secret, on a node with this chain. -/
structure Restarted (N : NoteCrypto P) (secret : P.Scalar) (s : ChainState P) (f : FaucetService P) :
    Prop where
  enabled : f.enabled = true
  pending : f.pending = none
  seed : f.keystore.seed = faucetKeystoreSeed N.toWalletCrypto secret
  spendable : ∀ o, o ∈ f.store.spendable ↔ o.status = .confirmed ∧
    (o = ⟨faucetIndex, treasuryAllocation, Commitment.new treasuryAllocation secret, .confirmed⟩ ∧
        o.commitment ∈ s.utxos ∨
      Recoverable N (treasuryKeystore N secret) s o)
  fresh : (∀ o, Served s o → ∀ index, Owns N (treasuryKeystore N secret) o index →
      index.toNat < 2 ^ 32 - 1) →
    ∀ o, Served s o → ∀ index, Owns N (treasuryKeystore N secret) o index → index < f.keystore.nextIndex

theorem mem_spendable_reconcile_iff {store : WalletStore P} {o : OwnedOutput P}
    (hconfirmed : ∀ o ∈ store.outputs, o.status = .confirmed) :
    o ∈ (store.reconcile s.utxos).spendable ↔ o ∈ store.outputs ∧ o.commitment ∈ s.utxos := by
  rw [WalletStore.mem_spendable]
  constructor
  · rintro ⟨ho, hstatus⟩
    obtain ⟨old, hold, rfl⟩ := List.mem_map.mp ho
    have holdStatus := hconfirmed old hold
    by_cases hunspent : old.commitment ∈ s.utxos
    · refine ⟨?_, hunspent⟩
      obtain ⟨index, value, commitment, status⟩ := old
      obtain rfl : status = .confirmed := holdStatus
      simpa [hunspent, WalletStore.reconciled] using hold
    · simp [holdStatus, hunspent, WalletStore.reconciled] at hstatus
  · rintro ⟨ho, hunspent⟩
    have hstatus := hconfirmed o ho
    refine ⟨List.mem_map.mpr ⟨o, ho, ?_⟩, hstatus⟩
    obtain ⟨index, value, commitment, status⟩ := o
    obtain rfl : status = .confirmed := hstatus
    have hunspent : commitment ∈ s.utxos := hunspent
    simp [hunspent, WalletStore.reconciled]

variable {D : Block P → Prop} {chain : List (Block P)} {secret : P.Scalar}

/-- With the treasury's secret, a start goes through. -/
theorem restarted_of_tracks (hD : DistinctHashes D) (h : Tracks D s chain)
    (hheight : s.currentHeight.toNat < usizeMax) (hsecret : N.treasuryBlinding = some secret)
    (generated : Keystore) :
    ∃ f, FaucetService.new N generated (Commitment.new treasuryAllocation secret) s = .ok f ∧
      Restarted N secret s f := by
  obtain ⟨keystore', restored, hrecover, hseed, hrestored, hfresh⟩ :=
    recoverFaucetChange_of_tracks (N := N) hD h hheight (treasuryKeystore N secret)
      (WalletStore.new.addOutput faucetIndex treasuryAllocation (Commitment.new treasuryAllocation secret)
        .confirmed)
  generalize htreasury : Commitment.new treasuryAllocation secret = commitment at hrecover ⊢
  have houtputs : ∀ o : OwnedOutput P,
      o ∈ (WalletStore.new.addOutput faucetIndex treasuryAllocation commitment .confirmed).outputs ++
        restored ↔ o = ⟨faucetIndex, treasuryAllocation, commitment, .confirmed⟩ ∨ o ∈ restored := by
    intro o
    rw [List.mem_append]
    exact or_congr_left List.mem_singleton
  generalize (WalletStore.new.addOutput faucetIndex treasuryAllocation commitment .confirmed).outputs ++
    restored = outputs at hrecover houtputs
  have hconfirmed : ∀ o ∈ outputs, o.status = .confirmed := by
    intro o ho
    rcases (houtputs o).mp ho with rfl | ho
    · rfl
    · exact ((hrestored o).mp ho).1
  refine ⟨⟨⟨keystore', WalletStore.reconcile ⟨outputs⟩ s.utxos⟩, none, true, ∅⟩, ?_, rfl, rfl, hseed, ?_,
    hfresh⟩
  -- the secret belongs to the treasury's output, so the faucet is on
  · rw [FaucetService.new, hsecret]
    dsimp only
    rw [htreasury, if_neg (not_not.mpr rfl)]
    exact congrArg (fun r => r >>= fun (r : Keystore × WalletStore P) =>
      Except.ok (FaucetService.mk ⟨r.1, r.2.reconcile s.utxos⟩ none true ∅)) hrecover
  -- the treasury output was entered by hand, the others came from the scan
  · intro o
    rw [htreasury, mem_spendable_reconcile_iff hconfirmed]
    dsimp only
    rw [houtputs, hrestored]
    constructor
    · rintro ⟨rfl | ⟨hstatus, hrecoverable⟩, hunspent⟩
      · exact ⟨rfl, .inl ⟨rfl, hunspent⟩⟩
      · exact ⟨hstatus, .inr hrecoverable⟩
    · rintro ⟨hstatus, ⟨rfl, hunspent⟩ | hrecoverable⟩
      · exact ⟨.inl rfl, hunspent⟩
      · exact ⟨.inr ⟨hstatus, hrecoverable⟩, hrecoverable.unspent⟩

/-- The output of a sponsored payment is its change, and in the ledger. -/
theorem change_of_sponsored {earlier later : FaucetState P} {coins : SponsorCoins N.toWalletCrypto}
    {fee : UInt64} {payment : SponsoredPayment P} {out : Output P}
    (h : earlier.buildSponsoredFeePayment N.toWalletCrypto coins fee = some (.ok payment, later))
    (hout : out ∈ payment.transaction.outputs) :
    ∃ value change blinding keystore',
      makeChange N.toWalletCrypto coins.change earlier.keystore value = (some change, blinding, keystore') ∧
      change.output = out ∧ ∃ own ∈ later.store.outputs, own.planned = change.planned := by
  obtain ⟨built, hbuilt, hresult⟩ := Option.map_eq_some_iff.mp h
  cases built with
  | error e => cases hresult
  | ok built =>
      obtain ⟨payment', keystore', store'⟩ := built
      cases hresult
      obtain ⟨selected, blindings, made, -, -, hmade, htx, -, -, hstore⟩ := buildSponsoredFeePayment_ok hbuilt
      obtain ⟨change, blinding, keystore'⟩ := made
      rw [htx] at hout
      obtain ⟨change', hchange', rfl⟩ := Option.map_eq_some_iff.mp (Option.mem_toList.mp hout)
      obtain rfl : change = some change' := hchange'
      refine ⟨_, change', blinding, keystore', hmade.symm, rfl, ?_⟩
      have hplanned : change'.planned ∈ store'.outputs.map OwnedOutput.planned := by
        rw [hstore, WalletStore.planned_markAllSpent, WalletStore.planned_addPending]
        exact List.mem_append_right _ List.mem_cons_self
      exact List.mem_map.mp hplanned

/-- **A faucet after a restart.** Whatever blocks a node has applied, a faucet that is started on it with the
treasury's secret is enabled and has nothing pending. It has confirmed in its ledger exactly the treasury
and the unspent outputs on the active chain with a note of its keystore; among these is the change of every
sponsored payment and every payout that an earlier process has made, under its index and value, once it is
mined and until it is spent. -/
theorem faucet_restarted {bs : List (Block P)} (hD : DistinctHashes D) (hbs : ∀ b ∈ bs, D b)
    (hheight : (deliver bs).currentHeight.toNat < usizeMax) (hsecret : N.treasuryBlinding = some secret)
    (generated : Keystore) :
    ∃ f, FaucetService.new N generated (Commitment.new treasuryAllocation secret) (deliver bs) = .ok f ∧
      Restarted N secret (deliver bs) f ∧
      (∀ earlier later coins fee payment,
        earlier.keystore.seed = faucetKeystoreSeed N.toWalletCrypto secret →
        FaucetState.buildSponsoredFeePayment N.toWalletCrypto coins fee earlier =
          some (.ok payment, later) →
        ∀ out ∈ payment.transaction.outputs, Served (deliver bs) out →
          out.commitment ∈ (deliver bs).utxos →
          ∃ own ∈ later.store.outputs, own.commitment = out.commitment ∧
            { own with status := .confirmed } ∈ f.store.spendable) ∧
      ∀ keystore keystore' store coins amount fee slate pending,
        keystore.seed = faucetKeystoreSeed N.toWalletCrypto secret →
        createSlate N.toWalletCrypto coins keystore store amount fee =
          some (.ok (slate, pending), keystore') →
        ∀ change ∈ pending.change, Served (deliver bs) change.output →
          change.output.commitment ∈ (deliver bs).utxos →
          ⟨change.index, change.value, change.output.commitment, .confirmed⟩ ∈ f.store.spendable := by
  obtain ⟨⟨chain, htracks⟩, -⟩ := Tracks.new.applyBlocks hD hbs
  obtain ⟨f, hnew, hrestarted⟩ := restarted_of_tracks hD htracks hheight hsecret generated
  refine ⟨f, hnew, hrestarted, ?_, ?_⟩
  -- a sponsored registration
  · intro earlier later coins fee payment hseed hbuild out hout hserved hunspent
    obtain ⟨value, change, blinding, keystore', hmade, rfl, own, hown, hplanned⟩ :=
      change_of_sponsored hbuild hout
    have hrecoverable : Recoverable N (treasuryKeystore N secret) (deliver bs) _ :=
      recoverable_change hseed hmade hserved hunspent
    obtain ⟨index, value', commitment, status⟩ := own
    cases hplanned
    exact ⟨_, hown, rfl, (hrestarted.spendable _).mpr ⟨rfl, .inr hrecoverable⟩⟩
  -- a slate
  · intro keystore keystore' store coins amount fee slate pending hseed hcreate change hchange hserved
      hunspent
    obtain ⟨attempt, keystore₁, fee₁, probe, hseed₁, hbuild, -⟩ := createSlate_ok hcreate
    obtain ⟨selected, blindings, made, -, -, hmade, -, rfl, -⟩ := buildSlate_ok hbuild
    obtain ⟨change', blinding, keystore₂⟩ := made
    obtain rfl : change' = some change := hchange
    have hrecoverable : Recoverable N (treasuryKeystore N secret) (deliver bs) _ :=
      recoverable_change (hseed₁.trans hseed) hmade.symm hserved hunspent
    exact (hrestarted.spendable _).mpr ⟨rfl, .inr hrecoverable⟩

end Restarted

namespace Devnet

open ChainState

/-- The faucet as it first starts. -/
def firstFaucet : FaucetState crypto :=
  ⟨treasuryKeystore noteCrypto (7 : BitVec 256), faucetStore⟩

def firstCoins : SponsorCoins noteCrypto.toWalletCrypto :=
  ⟨⟨(), List.Vector.replicate 12 0⟩, 3⟩

/-- It pays for a registration out of the treasury. -/
def firstPayment : Option (Except PlanError (SponsoredPayment crypto) × FaucetState crypto) :=
  firstFaucet.buildSponsoredFeePayment noteCrypto.toWalletCrypto firstCoins nameRegistrationFee

def firstTransaction : Transaction crypto :=
  match firstPayment with
  | some (.ok payment, _) => payment.transaction
  | _ => ⟨[], [], []⟩

/-- The payment is mined. -/
@[irreducible] def paidBlock : Block crypto :=
  (minedFrom [firstTransaction]).block

theorem paid_run :
    (zeroHash :: [genesis, paidBlock].map Block.hash).Nodup ∧
    (firstPayment.any fun r => r.1.isOk) = true ∧
    (deliver [genesis, paidBlock]).currentHeight = 1 ∧
    firstTransaction.outputs.length = 1 ∧
    ∀ out ∈ firstTransaction.outputs, out.commitment ∈ (deliver [genesis, paidBlock]).utxos ∧
      ∃ b ∈ (deliver [genesis, paidBlock]).activeChain, out ∈ b.allOutputs := by
  decide +kernel

/-- The process ends, and the next one finds the change. -/
theorem change_recovered :
    ∃ f, FaucetService.new noteCrypto (seedOnly 1) (Commitment.new (P := crypto) treasuryAllocation 7)
        (deliver [genesis, paidBlock]) = .ok f ∧ f.enabled = true ∧
      ∃ own ∈ f.store.spendable, own.commitment ∈ firstTransaction.outputs.map Output.commitment := by
  obtain ⟨hnodup, hpaid, hheight, hone, hmined⟩ := paid_run
  have hsecret : noteCrypto.treasuryBlinding = some (7 : BitVec 256) := rfl
  obtain ⟨f, hnew, hrestarted, hsponsored, -⟩ := faucet_restarted (distinctHashes_of_nodup hnodup)
    (fun b hb => hb) (by rw [hheight]; decide) hsecret (seedOnly 1)
  refine ⟨f, hnew, hrestarted.enabled, ?_⟩
  have hmade : ∃ payment later, firstPayment = some (.ok payment, later) ∧
      payment.transaction = firstTransaction := by
    unfold firstTransaction
    generalize firstPayment = r at hpaid ⊢
    rcases r with _ | ⟨_ | payment, later⟩
    · cases hpaid
    · cases hpaid
    · exact ⟨payment, later, rfl, rfl⟩
  obtain ⟨payment, later, hpayment, htransaction⟩ := hmade
  obtain ⟨out, hout⟩ := List.exists_mem_of_length_pos (hone.symm ▸ Nat.one_pos)
  obtain ⟨hunspent, hserved⟩ := hmined out hout
  rw [← htransaction] at hout ⊢
  obtain ⟨own, -, hcommitment, hspendable⟩ :=
    hsponsored firstFaucet later firstCoins nameRegistrationFee payment rfl hpayment out hout hserved hunspent
  exact ⟨_, hspendable, List.mem_map.mpr ⟨out, hout, hcommitment.symm⟩⟩

end Devnet

end Haze
