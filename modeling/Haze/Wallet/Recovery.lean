import Haze.Lib.Checked
import Haze.Wallet.Notes

/-!
# Restoring a wallet (`wallet/src/recovery.rs`)

A wallet that has only its seed goes through all outputs a node serves. A note that opens gives an index
and a value; if the commitment comes out again the output is its own. Unspent ones go into the new ledger,
and the next index is put past all of them, spent or not.

The entries come from outside. Nothing in them can mislead the restore, but a note of the right length with
a character of several bytes in the wrong place ends it: the decoder slices the string at byte offsets.
-/

namespace Haze

variable {P : Crypto} {N : NoteCrypto P}

/-- The accumulators of the loop. -/
structure Recovering (P : Crypto) where
  store : WalletStore P
  maxIndexSeen : Option UInt32
  recoveredBalance : UInt64
  recoveredCount : UInt32

structure RecoveryResult (P : Crypto) where
  store : WalletStore P
  recoveredCount : UInt32
  recoveredBalance : UInt64

/-- An output of the wallet has been seen. -/
def Recovering.add (acc : Recovering P) (index : UInt32) (value : UInt64) (commitment : Commitment P)
    (unspent : Bool) : Recovering P :=
  let acc := { acc with maxIndexSeen := some (acc.maxIndexSeen.elim index fun m => max m index) }
  if unspent then
    { acc with
      store := acc.store.addOutput index value commitment .confirmed
      recoveredBalance := acc.recoveredBalance + value
      recoveredCount := acc.recoveredCount + 1 }
  else acc

@[simp] theorem Recovering.maxIndexSeen_add (acc : Recovering P) (index : UInt32) (value : UInt64)
    (commitment : Commitment P) (unspent : Bool) :
    (acc.add index value commitment unspent).maxIndexSeen =
      some (acc.maxIndexSeen.elim index fun m => max m index) := by
  cases unspent <;> rfl

section Model

variable (N) (keystore : Keystore) (utxoSet : List String)

/-- The body of the loop. -/
def recoverEntry (acc : Recovering P) (entry : ScanEntry) : Except Panic (Recovering P) :=
  match entry.opened N (keystore.noteKey N.toWalletCrypto) with
  | .error e => .error e
  | .ok none => .ok acc
  | .ok (some (index, value)) =>
      let expected := Commitment.new value (keystore.deriveBlinding N.toWalletCrypto index)
      if expected.toHex ≠ entry.commitmentHex then .ok acc
      else .ok (acc.add index value expected (entry.commitmentHex ∈ utxoSet))

def recoverFromChain (entries : List ScanEntry) : Except Panic (RecoveryResult P × Keystore) :=
  match entries.foldlM (recoverEntry N keystore utxoSet) ⟨.new, none, 0, 0⟩ with
  | .error e => .error e
  | .ok acc =>
      let keystore :=
        match acc.maxIndexSeen with
        | some maxIndex => keystore.ensureNextIndexAtLeast (maxIndex + 1)
        | none => keystore
      .ok (⟨acc.store, acc.recoveredCount, acc.recoveredBalance⟩, keystore)

end Model

/-! ## The loop

The body either stops at a note that cannot be sliced or goes on with new accumulators. So the loop is a
fold over the entries that decode, and what the accumulators hold is said of the entries seen so far. -/

section Loop

variable (N) (keystore : Keystore) (utxoSet : List String)

/-- What an entry of the wallet holds. -/
def ownedEntry (entry : ScanEntry) : Option (UInt32 × UInt64) :=
  entry.owned N (keystore.noteKey N.toWalletCrypto) (keystore.deriveBlinding N.toWalletCrypto)

/-- The same, if it is unspent. -/
def unspentEntry (entry : ScanEntry) : Option (UInt32 × UInt64) :=
  entry.ownedUnspent N (keystore.noteKey N.toWalletCrypto) (keystore.deriveBlinding N.toWalletCrypto)
    utxoSet

/-- How an unspent output is entered. -/
def restoredOutput (r : UInt32 × UInt64) : OwnedOutput P :=
  ⟨r.1, r.2, Commitment.new r.2 (keystore.deriveBlinding N.toWalletCrypto r.1), .confirmed⟩

/-- An entry that decodes: nothing changes if it is not of the wallet. -/
def recoverNext (acc : Recovering P) (entry : ScanEntry) : Recovering P :=
  match ownedEntry N keystore entry with
  | some (index, value) =>
      acc.add index value (Commitment.new value (keystore.deriveBlinding N.toWalletCrypto index))
        (entry.commitmentHex ∈ utxoSet)
  | none => acc

variable {N keystore utxoSet}

theorem recoverEntry_ok_iff (acc : Recovering P) (entry : ScanEntry) (acc' : Recovering P) :
    recoverEntry N keystore utxoSet acc entry = .ok acc' ↔
      entry.Decodes ∧ acc' = recoverNext N keystore utxoSet acc entry := by
  rw [← ScanEntry.exists_opened_iff N (keystore.noteKey N.toWalletCrypto)]
  unfold recoverEntry recoverNext ownedEntry ScanEntry.owned
  cases entry.opened N (keystore.noteKey N.toWalletCrypto) with
  | error e => simp
  | ok opened =>
      cases opened with
      | none => simp [eq_comm]
      | some r =>
          obtain ⟨index, value⟩ := r
          by_cases hcommits : (Commitment.new value
              (keystore.deriveBlinding N.toWalletCrypto index)).toHex = entry.commitmentHex
          · simp [hcommits, eq_comm]
          · simp [hcommits, eq_comm]

/-- What the accumulators hold after the entries `seen`. -/
structure Tally (N : NoteCrypto P) (keystore : Keystore) (utxoSet : List String) (seen : List ScanEntry)
    (acc : Recovering P) : Prop where
  outputs : acc.store.outputs =
    (seen.filterMap (unspentEntry N keystore utxoSet)).map (restoredOutput N keystore)
  balance : acc.recoveredBalance =
    ((seen.filterMap (unspentEntry N keystore utxoSet)).map Prod.snd).sum
  count : acc.recoveredCount = UInt32.ofNat (seen.filterMap (unspentEntry N keystore utxoSet)).length
  attained : ∀ m, acc.maxIndexSeen = some m →
    ∃ entry ∈ seen, ∃ value, ownedEntry N keystore entry = some (m, value)
  bound : ∀ entry ∈ seen, ∀ index value, ownedEntry N keystore entry = some (index, value) →
    ∃ m, acc.maxIndexSeen = some m ∧ index ≤ m

/-- `u32::max`. -/
theorem max_spec (a b : UInt32) : (max a b = a ∨ max a b = b) ∧ a ≤ max a b ∧ b ≤ max a b := by
  rcases UInt32.le_total a b with hle | hle
  · have hmax : max a b = b := if_pos hle
    rw [hmax]
    exact ⟨.inr rfl, hle, UInt32.le_refl b⟩
  · by_cases hle' : a ≤ b
    · obtain rfl := UInt32.le_antisymm hle hle'
      have hmax : max b b = b := if_pos hle
      rw [hmax]
      exact ⟨.inl rfl, hle, hle⟩
    · have hmax : max a b = a := if_neg hle'
      rw [hmax]
      exact ⟨.inl rfl, UInt32.le_refl a, hle⟩

section Step

variable {seen : List ScanEntry} {acc : Recovering P} {entry : ScanEntry} {index : UInt32} {value : UInt64}

/-- With an entry of the wallet, the largest index stays or becomes its own. -/
theorem Tally.maxIndex (h : Tally N keystore utxoSet seen acc)
    (howned : ownedEntry N keystore entry = some (index, value)) {m : UInt32}
    (hm : m = acc.maxIndexSeen.elim index fun m => max m index) :
    (∃ entry' ∈ seen ++ [entry], ∃ value, ownedEntry N keystore entry' = some (m, value)) ∧
      ∀ entry' ∈ seen ++ [entry], ∀ index value, ownedEntry N keystore entry' = some (index, value) →
        index ≤ m := by
  have hlast : entry ∈ seen ++ [entry] := List.mem_append_right _ (List.mem_singleton.mpr rfl)
  cases hmax : acc.maxIndexSeen with
  | none =>
      rw [hmax] at hm
      have hm : m = index := hm
      subst hm
      refine ⟨⟨entry, hlast, value, howned⟩, ?_⟩
      intro entry' hentry' index' value' howned'
      rcases List.mem_append.mp hentry' with hentry' | hentry'
      · obtain ⟨m₀, hmax', -⟩ := h.bound entry' hentry' index' value' howned'
        cases hmax.symm.trans hmax'
      · rw [List.mem_singleton.mp hentry'] at howned'
        cases howned.symm.trans howned'
        exact UInt32.le_refl _
  | some m₀ =>
      rw [hmax] at hm
      have hm : m = max m₀ index := hm
      obtain ⟨hwhich, hle, hle'⟩ := max_spec m₀ index
      rw [← hm] at hwhich hle hle'
      refine ⟨?_, ?_⟩
      · rcases hwhich with rfl | rfl
        · obtain ⟨entry', hentry', value', howned'⟩ := h.attained m hmax
          exact ⟨entry', List.mem_append_left _ hentry', value', howned'⟩
        · exact ⟨entry, hlast, value, howned⟩
      · intro entry' hentry' index' value' howned'
        rcases List.mem_append.mp hentry' with hentry' | hentry'
        · obtain ⟨m₁, hmax', hle₁⟩ := h.bound entry' hentry' index' value' howned'
          cases hmax.symm.trans hmax'
          exact UInt32.le_trans hle₁ hle
        · rw [List.mem_singleton.mp hentry'] at howned'
          cases howned.symm.trans howned'
          exact hle'

theorem unspentEntry_eq (entry : ScanEntry) : unspentEntry N keystore utxoSet entry =
    if entry.commitmentHex ∈ utxoSet then ownedEntry N keystore entry else none :=
  rfl

/-- An entry of somebody else is passed over. -/
theorem Tally.skip (h : Tally N keystore utxoSet seen acc) (hother : ownedEntry N keystore entry = none) :
    Tally N keystore utxoSet (seen ++ [entry]) acc := by
  have hsame : (seen ++ [entry]).filterMap (unspentEntry N keystore utxoSet) =
      seen.filterMap (unspentEntry N keystore utxoSet) := by
    simp [unspentEntry_eq, hother]
  refine ⟨?_, ?_, ?_, ?_, ?_⟩
  · rw [hsame]
    exact h.outputs
  · rw [hsame]
    exact h.balance
  · rw [hsame]
    exact h.count
  · intro m hm
    obtain ⟨entry', hentry', hfound⟩ := h.attained m hm
    exact ⟨entry', List.mem_append_left _ hentry', hfound⟩
  · intro entry' hentry' index value hfound
    rcases List.mem_append.mp hentry' with hentry' | hentry'
    · exact h.bound entry' hentry' index value hfound
    · rw [List.mem_singleton.mp hentry', hother] at hfound
      cases hfound

/-- An entry of the wallet counts for the indices, and if it is unspent for everything. -/
theorem Tally.add (h : Tally N keystore utxoSet seen acc)
    (howned : ownedEntry N keystore entry = some (index, value)) :
    Tally N keystore utxoSet (seen ++ [entry]) (acc.add index value
      (Commitment.new value (keystore.deriveBlinding N.toWalletCrypto index))
      (entry.commitmentHex ∈ utxoSet)) := by
  obtain ⟨hattained, hbound⟩ := h.maxIndex howned rfl
  have hmax := acc.maxIndexSeen_add index value
    (Commitment.new value (keystore.deriveBlinding N.toWalletCrypto index))
  by_cases hmem : entry.commitmentHex ∈ utxoSet
  · have hone : (seen ++ [entry]).filterMap (unspentEntry N keystore utxoSet) =
        seen.filterMap (unspentEntry N keystore utxoSet) ++ [(index, value)] := by
      simp [unspentEntry_eq, hmem, howned]
    rw [decide_eq_true hmem]
    refine ⟨?_, ?_, ?_, ?_, ?_⟩
    · rw [hone, List.map_append, ← h.outputs]
      rfl
    · rw [hone, List.map_append, List.sum_append, ← h.balance]
      show acc.recoveredBalance + value = _ + (value + 0)
      rw [add_zero]
    · rw [hone, List.length_append, UInt32.ofNat_add, ← h.count]
      rfl
    · intro m hm
      cases (hmax true).symm.trans hm
      exact hattained
    · intro entry' hentry' i v hfound
      exact ⟨_, hmax true, hbound entry' hentry' i v hfound⟩
  · have hsame : (seen ++ [entry]).filterMap (unspentEntry N keystore utxoSet) =
        seen.filterMap (unspentEntry N keystore utxoSet) := by
      simp [unspentEntry_eq, hmem]
    rw [decide_eq_false hmem]
    refine ⟨?_, ?_, ?_, ?_, ?_⟩
    · rw [hsame]
      exact h.outputs
    · rw [hsame]
      exact h.balance
    · rw [hsame]
      exact h.count
    · intro m hm
      cases (hmax false).symm.trans hm
      exact hattained
    · intro entry' hentry' i v hfound
      exact ⟨_, hmax false, hbound entry' hentry' i v hfound⟩

/-- The step. -/
theorem Tally.next (h : Tally N keystore utxoSet seen acc) (entry : ScanEntry) :
    Tally N keystore utxoSet (seen ++ [entry]) (recoverNext N keystore utxoSet acc entry) := by
  unfold recoverNext
  cases howned : ownedEntry N keystore entry with
  | none => exact h.skip howned
  | some r => exact h.add howned

theorem tally_recoverNext (entries : List ScanEntry) :
    Tally N keystore utxoSet entries
      (entries.foldl (recoverNext N keystore utxoSet) ⟨.new, none, 0, 0⟩) := by
  induction entries using List.reverseRecOn with
  | nil => exact ⟨rfl, rfl, rfl, (fun m hm => nomatch hm), List.forall_mem_nil _⟩
  | append_singleton entries entry ih =>
      rw [List.foldl_append]
      exact ih.next entry

end Step

end Loop

/-! ## The restore

An entry that decodes and is not the wallet's changes nothing, whoever has made it up. So the ledger ends up
with the wallet's own unspent outputs, and the next index is past every index of its own that was served. -/

theorem Keystore.le_ensureNextIndexAtLeast (keystore : Keystore) (min : UInt32) :
    min ≤ (keystore.ensureNextIndexAtLeast min).nextIndex ∧
      keystore.nextIndex ≤ (keystore.ensureNextIndexAtLeast min).nextIndex := by
  unfold ensureNextIndexAtLeast
  split
  next hlt => exact ⟨UInt32.le_refl _, UInt32.le_of_lt hlt⟩
  next hge => exact ⟨UInt32.not_lt.mp hge, UInt32.le_refl _⟩

section Restore

variable {keystore keystore' : Keystore} {utxoSet : List String} {entries : List ScanEntry}
  {result : RecoveryResult P}

/-- A restore goes through exactly when no note makes the decoder panic. -/
theorem recoverFromChain_ok_iff :
    recoverFromChain N keystore utxoSet entries = .ok (result, keystore') ↔
      (∀ entry ∈ entries, entry.Decodes) ∧
        ∃ acc, acc = entries.foldl (recoverNext N keystore utxoSet) ⟨.new, none, 0, 0⟩ ∧
          result = ⟨acc.store, acc.recoveredCount, acc.recoveredBalance⟩ ∧
          keystore' = acc.maxIndexSeen.elim keystore fun m => keystore.ensureNextIndexAtLeast (m + 1) := by
  have hloop : ∀ acc, entries.foldlM (recoverEntry N keystore utxoSet) ⟨.new, none, 0, 0⟩ = .ok acc ↔
      (∀ entry ∈ entries, entry.Decodes) ∧
        acc = entries.foldl (recoverNext N keystore utxoSet) ⟨.new, none, 0, 0⟩ :=
    fun acc => Checked.foldlM_ok_iff recoverEntry_ok_iff
  have hkeystore : ∀ acc : Recovering P, (match acc.maxIndexSeen with
      | some maxIndex => keystore.ensureNextIndexAtLeast (maxIndex + 1)
      | none => keystore) =
      acc.maxIndexSeen.elim keystore fun m => keystore.ensureNextIndexAtLeast (m + 1) := by
    intro acc
    cases acc.maxIndexSeen <;> rfl
  unfold recoverFromChain
  constructor
  · intro h
    split at h
    · cases h
    next acc hacc =>
      obtain ⟨hdecodes, hfold⟩ := (hloop acc).mp hacc
      cases h
      exact ⟨hdecodes, acc, hfold, rfl, hkeystore acc⟩
  · rintro ⟨hdecodes, acc, hfold, rfl, rfl⟩
    rw [(hloop acc).mpr ⟨hdecodes, hfold⟩]
    dsimp only
    rw [hkeystore]

/-- What a restore is for: the ledger has the unspent outputs of the wallet, and no index of an output that
was served is given out again. -/
structure Restores (N : NoteCrypto P) (keystore : Keystore) (utxoSet : List String)
    (entries : List ScanEntry) (result : RecoveryResult P) (keystore' : Keystore) : Prop where
  commitments : ∀ c, c ∈ result.store.commitments ↔
    ∃ entry ∈ entries, entry.commitmentHex = c.toHex ∧ entry.commitmentHex ∈ utxoSet ∧
      ∃ index value, entry.opened N (keystore.noteKey N.toWalletCrypto) = .ok (some (index, value)) ∧
        c = Commitment.new value (keystore.deriveBlinding N.toWalletCrypto index)
  fresh : ∀ entry ∈ entries, ∀ index value,
    entry.Holds N (keystore.noteKey N.toWalletCrypto) (keystore.deriveBlinding N.toWalletCrypto) index value →
      index < keystore'.nextIndex
  grows : keystore.nextIndex ≤ keystore'.nextIndex
  counts : (entries.map ScanEntry.commitmentHex).Nodup →
    result.recoveredBalance = result.store.balance ∧
      result.recoveredCount.toNat = result.store.outputs.length

theorem mem_commitments_iff {acc : Recovering P} (h : Tally N keystore utxoSet entries acc)
    (c : Commitment P) :
    c ∈ acc.store.commitments ↔
      ∃ entry ∈ entries, entry.commitmentHex = c.toHex ∧ entry.commitmentHex ∈ utxoSet ∧
        ∃ index value, entry.opened N (keystore.noteKey N.toWalletCrypto) = .ok (some (index, value)) ∧
          c = Commitment.new value (keystore.deriveBlinding N.toWalletCrypto index) := by
  rw [WalletStore.commitments, h.outputs, List.map_map]
  simp only [List.mem_map, List.mem_filterMap, Function.comp_apply]
  constructor
  · rintro ⟨⟨index, value⟩, ⟨entry, hentry, hfound⟩, rfl⟩
    obtain ⟨hunspent, hholds⟩ := ScanEntry.ownedUnspent_eq_some_iff.mp hfound
    exact ⟨entry, hentry, hholds.commits, hunspent, index, value, (ScanEntry.holds_iff.mp hholds).1, rfl⟩
  · rintro ⟨entry, hentry, hhex, hunspent, index, value, hopened, rfl⟩
    refine ⟨(index, value), ⟨entry, hentry, ?_⟩, rfl⟩
    exact ScanEntry.ownedUnspent_eq_some_iff.mpr ⟨hunspent, ScanEntry.holds_iff.mpr ⟨hopened, hhex.symm⟩⟩

/-- All that is entered is confirmed, so the balance is what was added up. -/
theorem balance_eq {acc : Recovering P} (h : Tally N keystore utxoSet entries acc) :
    acc.recoveredBalance = acc.store.balance := by
  have hconfirmed : (acc.store.outputs.filter fun o => o.status = .confirmed) = acc.store.outputs := by
    rw [List.filter_eq_self, h.outputs]
    intro o ho
    obtain ⟨r, -, rfl⟩ := List.mem_map.mp ho
    rfl
  rw [h.balance, WalletStore.balance, hconfirmed, h.outputs, List.map_map]
  rfl

/-- The next index is past every index that was seen. -/
theorem lt_nextIndex {acc : Recovering P} (h : Tally N keystore utxoSet entries acc)
    (hindices : ∀ entry ∈ entries, ∀ index value, ownedEntry N keystore entry = some (index, value) →
      index.toNat < 2 ^ 32 - 1)
    {entry : ScanEntry} (hentry : entry ∈ entries) {index : UInt32} {value : UInt64}
    (howned : ownedEntry N keystore entry = some (index, value)) :
    index < (acc.maxIndexSeen.elim keystore fun m =>
      keystore.ensureNextIndexAtLeast (m + 1)).nextIndex := by
  obtain ⟨m, hmax, hle⟩ := h.bound entry hentry index value howned
  obtain ⟨entry', hentry', value', howned'⟩ := h.attained m hmax
  have hm := hindices entry' hentry' m value' howned'
  have hsucc : (m + 1).toNat = m.toNat + 1 := by
    rw [UInt32.toNat_add]
    exact Nat.mod_eq_of_lt (by
      show m.toNat + 1 < 2 ^ 32
      omega)
  have hnext := (keystore.le_ensureNextIndexAtLeast (m + 1)).1
  rw [hmax]
  show index < (keystore.ensureNextIndexAtLeast (m + 1)).nextIndex
  rw [UInt32.le_iff_toNat_le] at hle hnext
  rw [UInt32.lt_iff_toNat_lt]
  omega

theorem le_nextIndex (acc : Recovering P) :
    keystore.nextIndex ≤ (acc.maxIndexSeen.elim keystore fun m =>
      keystore.ensureNextIndexAtLeast (m + 1)).nextIndex := by
  cases acc.maxIndexSeen with
  | none => exact UInt32.le_refl _
  | some m => exact (keystore.le_ensureNextIndexAtLeast (m + 1)).2

/-- **When a wallet is restored.** Whatever is served, the restore does what it is for if and only if no
note makes the decoder panic, and what is recovered can be counted. -/
theorem restores_iff
    (hindices : ∀ entry ∈ entries, ∀ index value,
      entry.Holds N (keystore.noteKey N.toWalletCrypto) (keystore.deriveBlinding N.toWalletCrypto) index
        value → index.toNat < 2 ^ 32 - 1) :
    (∃ result keystore', recoverFromChain N keystore utxoSet entries = .ok (result, keystore') ∧
        Restores N keystore utxoSet entries result keystore') ↔
      (∀ entry ∈ entries, entry.Decodes) ∧
        ((entries.map ScanEntry.commitmentHex).Nodup →
          (entries.filterMap (unspentEntry N keystore utxoSet)).length < 2 ^ 32) := by
  have htally : Tally N keystore utxoSet entries _ := tally_recoverNext entries
  have hlength := congrArg List.length htally.outputs
  rw [List.length_map] at hlength
  have hcount : ∀ n : ℕ, (UInt32.ofNat n).toNat = n ↔ n < 2 ^ 32 := by
    intro n
    rw [UInt32.toNat_ofNat']
    omega
  constructor
  · rintro ⟨result, keystore', hrun, hrestores⟩
    obtain ⟨hdecodes, acc, rfl, rfl, rfl⟩ := recoverFromChain_ok_iff.mp hrun
    refine ⟨hdecodes, ?_⟩
    intro hdistinct
    have h := (hrestores.counts hdistinct).2
    rwa [htally.count, hlength, hcount] at h
  · rintro ⟨hdecodes, hfits⟩
    refine ⟨_, _, recoverFromChain_ok_iff.mpr ⟨hdecodes, _, rfl, rfl, rfl⟩, ?_⟩
    refine ⟨mem_commitments_iff htally, ?_, le_nextIndex _, ?_⟩
    · intro entry hentry index value hholds
      refine lt_nextIndex htally ?_ hentry (ScanEntry.owned_eq_some_iff.mpr hholds)
      intro entry' hentry' index' value' howned'
      exact hindices entry' hentry' index' value' (ScanEntry.owned_eq_some_iff.mp howned')
    · intro hdistinct
      refine ⟨balance_eq htally, ?_⟩
      rw [htally.count, hlength, hcount]
      exact hfits hdistinct

end Restore

namespace Devnet

/-- A wallet of which only the seed is left. -/
def seedOnly (seed : ℕ) : Keystore := ⟨natBytes seed, 0⟩

/-- An output of the wallet. -/
def ownOutput (seed : ℕ) (index : UInt32) (value : UInt64) : Output crypto :=
  makeOutput noteCrypto.toWalletCrypto ⟨(), List.Vector.replicate 12 0⟩
    ((seedOnly seed).noteKey noteCrypto.toWalletCrypto) index value
    ((seedOnly seed).deriveBlinding noteCrypto.toWalletCrypto index)

def ownEntry (seed : ℕ) (index : UInt32) (value : UInt64) : ScanEntry :=
  (ownOutput seed index value).scanEntry

/-- Two outputs of the wallet, an output of another one, and entries that are no hex or under another
commitment. -/
def served : List ScanEntry :=
  [ownEntry 1 0 100, ownEntry 2 9 70, ⟨"ab", "abc"⟩, ⟨"00", (ownEntry 1 3 5).noteHex⟩, ownEntry 1 6 50]

-- a test of the option: to decide a statement about its members, instances may go through all pairs
def indexFits (seed : ℕ) (entry : ScanEntry) : Bool :=
  (ownedEntry (P := crypto) noteCrypto (seedOnly seed) entry).all fun r => r.1.toNat < 2 ^ 32 - 1

theorem lt_of_indexFits {seed : ℕ} {entry : ScanEntry} {index : UInt32} {value : UInt64}
    (hfits : indexFits seed entry = true)
    (hholds : entry.Holds noteCrypto ((seedOnly seed).noteKey noteCrypto.toWalletCrypto)
      ((seedOnly seed).deriveBlinding noteCrypto.toWalletCrypto) index value) :
    index.toNat < 2 ^ 32 - 1 := by
  have howned : ownedEntry (P := crypto) noteCrypto (seedOnly seed) entry = some (index, value) :=
    ScanEntry.owned_eq_some_iff.mpr hholds
  rw [indexFits, howned, Option.all_some] at hfits
  exact of_decide_eq_true hfits

/-- The second of the two is spent, and counts for the next index only. -/
theorem served_restores :
    ∃ result keystore', recoverFromChain (P := crypto) noteCrypto (seedOnly 1)
        [(ownEntry 1 0 100).commitmentHex] served = .ok (result, keystore') ∧
      Restores (P := crypto) noteCrypto (seedOnly 1) [(ownEntry 1 0 100).commitmentHex] served result
        keystore' := by
  have hdecodes : ∀ entry ∈ served, (match hexDecode entry.noteHex with
      | .ok _ => true
      | .error _ => false) = true := by
    decide +kernel
  have hfits : ∀ entry ∈ served, indexFits 1 entry = true := by
    decide +kernel
  refine (restores_iff ?_).mpr ⟨?_, ?_⟩
  · intro entry hentry index value hholds
    exact lt_of_indexFits (hfits entry hentry) hholds
  · intro entry hentry
    have h := hdecodes entry hentry
    split at h
    next note hnote => exact ⟨note, hnote⟩
    · cases h
  · intro _
    refine Nat.lt_of_le_of_lt (List.length_filterMap_le _ _) ?_
    decide

/-- A note of four bytes with a character of two in its middle: there is no result. -/
theorem served_panics :
    ¬ ∃ result keystore', recoverFromChain (P := crypto) noteCrypto (seedOnly 1)
        [(ownEntry 1 0 100).commitmentHex] [ownEntry 1 0 100, ⟨"00", "aéa"⟩] = .ok (result, keystore') ∧
      Restores (P := crypto) noteCrypto (seedOnly 1) [(ownEntry 1 0 100).commitmentHex]
        [ownEntry 1 0 100, ⟨"00", "aéa"⟩] result keystore' := by
  have hpanics : (match recoverFromChain (P := crypto) noteCrypto (seedOnly 1)
        [(ownEntry 1 0 100).commitmentHex] [ownEntry 1 0 100, ⟨"00", "aéa"⟩] with
      | .ok _ => false
      | .error e => decide (e = .charBoundary)) = true := by
    decide +kernel
  rintro ⟨result, keystore', hrun, -⟩
  rw [hrun] at hpanics
  cases hpanics

end Devnet

end Haze
