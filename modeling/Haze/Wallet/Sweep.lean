import Haze.Proposer.Body
import Haze.Wallet.Exact
import Haze.Wallet.Notes

/-!
# Sweeping rewards (`sweep_validator_rewards` in `src/wasm.rs`)

A proposer derives the blinding factor of a coinbase from its stake key and the height, and seals height
and value into the note. The owner of the stake later goes through all outputs a node serves and opens
what it can; the unspent ones are spent together, into one output of its wallet.

What is found are the rewards of the key, whatever else is served. The fee is the caller's, and unlike in
the other builders it is not fitted to the size of what was built.
-/

namespace Haze

variable {P : Crypto} {N : NoteCrypto P}

inductive SweepError where
  | noneFound
  | feeNotCovered (total fee : UInt64)
  deriving DecidableEq

/-- The three accumulators of the loop. -/
structure Sweeping (P : Crypto) where
  inputs : List (Input P)
  inputBlindings : List P.Scalar
  total : UInt64

structure SweepResult (P : Crypto) where
  transaction : Transaction P
  updatedKeystore : Keystore
  dest : OwnedOutputInfo P
  sweptCount : UInt32
  sweptTotal : UInt64

/-- What a sweep draws at random. -/
structure SweepCoins (W : WalletCrypto P) where
  dest : OutputCoins W
  nonce : P.Scalar

section Model

variable (N) (stakeKey : P.Scalar) (utxoSet : List String)

/-- The blinding factor of the height a note holds. -/
def rewardBlinding (height : UInt32) : P.Scalar :=
  coinbaseBlinding N.toWalletCrypto stakeKey height.toUInt64

/-- The body of the loop. -/
def sweepEntry (swept : Sweeping P) (entry : ScanEntry) : Except Panic (Sweeping P) :=
  match entry.opened N (coinbaseNoteKey N.toWalletCrypto stakeKey) with
  | .error e => .error e
  | .ok none => .ok swept
  | .ok (some (height, value)) =>
      if entry.commitmentHex ∉ utxoSet then .ok swept
      else
        let blinding := rewardBlinding N stakeKey height
        let commitment := Commitment.new value blinding
        if commitment.toHex ≠ entry.commitmentHex then .ok swept
        else
          .ok ⟨swept.inputs ++ [⟨commitment⟩], swept.inputBlindings ++ [blinding], swept.total + value⟩

/-- `sweep_validator_rewards`, on what its texts and bytes decode to. -/
def sweepValidatorRewards (coins : SweepCoins N.toWalletCrypto) (entries : List ScanEntry)
    (keystore : Keystore) (fee : UInt64) : Except Panic (Except SweepError (SweepResult P)) :=
  match entries.foldlM (sweepEntry N stakeKey utxoSet) ⟨[], [], 0⟩ with
  | .error e => .error e
  | .ok ⟨inputs, inputBlindings, sweptTotal⟩ =>
      let sweptCount := UInt32.ofNat inputs.length
      if sweptCount = 0 then .ok (.error .noneFound)
      else if sweptTotal ≤ fee then .ok (.error (.feeNotCovered sweptTotal fee))
      else
        let destValue := sweptTotal - fee
        let (destIndex, keystore) := keystore.allocateIndex
        let destBlinding := keystore.deriveBlinding N.toWalletCrypto destIndex
        let dest := makeOutput N.toWalletCrypto coins.dest (keystore.noteKey N.toWalletCrypto) destIndex
          destValue destBlinding
        let excessR := inputBlindings.sum - destBlinding
        let kernel : TxKernel P :=
          { excess := Commitment.new 0 excessR
            fee := fee
            signature := Signature.sign (toLeBytes 8 fee.toNat) excessR coins.nonce }
        .ok (.ok
          { transaction := ⟨inputs, [dest], [kernel]⟩
            updatedKeystore := keystore
            dest := ⟨destIndex, destValue, dest.commitment⟩
            sweptCount
            sweptTotal })

end Model

/-! ## What the loop finds

The loop adds up the rewards that are unspent and passes over all else. As in a restore, the one thing that
stops it is a note that cannot be sliced. -/

/-- The entry is of a coinbase of this key. -/
def IsReward (N : NoteCrypto P) (stakeKey : P.Scalar) (entry : ScanEntry) (height : UInt32)
    (value : UInt64) : Prop :=
  entry.Holds N (coinbaseNoteKey N.toWalletCrypto stakeKey) (rewardBlinding N stakeKey) height value

/-- The height and the value of an entry that is a reward of the key, and unspent. -/
def unspentReward (N : NoteCrypto P) (stakeKey : P.Scalar) (utxoSet : List String) (entry : ScanEntry) :
    Option (UInt32 × UInt64) :=
  entry.ownedUnspent N (coinbaseNoteKey N.toWalletCrypto stakeKey) (rewardBlinding N stakeKey) utxoSet

/-- What the unspent rewards among the entries are worth. -/
def unspentTotal (N : NoteCrypto P) (stakeKey : P.Scalar) (utxoSet : List String)
    (entries : List ScanEntry) : ℕ :=
  ((entries.filterMap (unspentReward N stakeKey utxoSet)).map fun r => r.2.toNat).sum

section Loop

variable {stakeKey : P.Scalar} {utxoSet : List String} {entry : ScanEntry} {entries : List ScanEntry}

theorem unspentReward_eq_some_iff {height : UInt32} {value : UInt64} :
    unspentReward N stakeKey utxoSet entry = some (height, value) ↔
      entry.commitmentHex ∈ utxoSet ∧ IsReward N stakeKey entry height value :=
  ScanEntry.ownedUnspent_eq_some_iff

/-- What rewards add to the accumulators. -/
def Sweeping.add (N : NoteCrypto P) (stakeKey : P.Scalar) (swept : Sweeping P)
    (found : List (UInt32 × UInt64)) : Sweeping P where
  inputs := swept.inputs ++ found.map fun r => ⟨Commitment.new r.2 (rewardBlinding N stakeKey r.1)⟩
  inputBlindings := swept.inputBlindings ++ found.map fun r => rewardBlinding N stakeKey r.1
  total := swept.total + (found.map Prod.snd).sum

@[simp] theorem Sweeping.add_nil (swept : Sweeping P) : swept.add N stakeKey [] = swept := by
  simp [Sweeping.add]

/-- The step: an entry that does not make the decoder panic adds its reward, if it is one. -/
theorem sweepEntry_ok_iff (swept : Sweeping P) (entry : ScanEntry) (swept' : Sweeping P) :
    sweepEntry N stakeKey utxoSet swept entry = .ok swept' ↔
      entry.Decodes ∧ swept' = swept.add N stakeKey (unspentReward N stakeKey utxoSet entry).toList := by
  rw [← ScanEntry.exists_opened_iff N (coinbaseNoteKey N.toWalletCrypto stakeKey)]
  unfold sweepEntry unspentReward ScanEntry.ownedUnspent ScanEntry.owned
  cases entry.opened N (coinbaseNoteKey N.toWalletCrypto stakeKey) with
  | error e => simp
  | ok opened =>
      cases opened with
      | none => simp [eq_comm]
      | some r =>
          obtain ⟨height, value⟩ := r
          by_cases hunspent : entry.commitmentHex ∈ utxoSet
          · by_cases hcommits :
                (Commitment.new value (rewardBlinding N stakeKey height)).toHex = entry.commitmentHex
            · simp [hunspent, hcommits, Sweeping.add, eq_comm]
            · simp [hunspent, hcommits, eq_comm]
          · simp [hunspent, eq_comm]

theorem foldl_add (f : ScanEntry → Option (UInt32 × UInt64)) (swept : Sweeping P) :
    entries.foldl (fun swept entry => swept.add N stakeKey (f entry).toList) swept =
      swept.add N stakeKey (entries.filterMap f) := by
  induction entries generalizing swept with
  | nil => simp
  | cons entry entries ih =>
      rw [List.foldl_cons, ih, List.filterMap_cons]
      cases f entry with
      | none => simp
      | some r => simp [Sweeping.add, add_assoc]

/-- The loop: if it goes through, it has added the unspent rewards among the entries, in their order. -/
theorem sweepEntries_ok {swept : Sweeping P}
    (h : entries.foldlM (sweepEntry N stakeKey utxoSet) ⟨[], [], 0⟩ = .ok swept) :
    swept = Sweeping.add N stakeKey ⟨[], [], 0⟩ (entries.filterMap (unspentReward N stakeKey utxoSet)) := by
  obtain ⟨-, rfl⟩ := (Checked.foldlM_ok_iff sweepEntry_ok_iff).mp h
  exact foldl_add _ _

end Loop

/-! ## What comes out

All rewards go into one transaction with one output. The sum wraps as the machine does, so the transaction
balances only if the rewards together fit the type. -/

section Result

variable {stakeKey : P.Scalar} {utxoSet : List String} {entries : List ScanEntry}
  {coins : SweepCoins N.toWalletCrypto} {keystore : Keystore} {fee : UInt64} {result : SweepResult P}

/-- The one output that takes up the rewards. -/
def sweptOutput (N : NoteCrypto P) (coins : SweepCoins N.toWalletCrypto) (keystore : Keystore)
    (value : UInt64) : Output P :=
  makeOutput N.toWalletCrypto coins.dest (keystore.noteKey N.toWalletCrypto) keystore.nextIndex value
    (keystore.deriveBlinding N.toWalletCrypto keystore.nextIndex)

/-- A result, in terms of the rewards that were found. -/
theorem sweepValidatorRewards_ok
    (h : sweepValidatorRewards N stakeKey utxoSet coins entries keystore fee = .ok (.ok result)) :
    ∃ found excessR, found = entries.filterMap (unspentReward N stakeKey utxoSet) ∧
      excessR = (found.map fun r => rewardBlinding N stakeKey r.1).sum -
        keystore.deriveBlinding N.toWalletCrypto keystore.nextIndex ∧
      result.sweptTotal = (found.map Prod.snd).sum ∧ fee < result.sweptTotal ∧
      result.dest.value = result.sweptTotal - fee ∧
      result.transaction =
        ⟨found.map fun r => ⟨Commitment.new r.2 (rewardBlinding N stakeKey r.1)⟩,
          [sweptOutput N coins keystore (result.sweptTotal - fee)],
          [⟨Commitment.new 0 excessR, fee, Signature.sign (toLeBytes 8 fee.toNat) excessR coins.nonce⟩]⟩ := by
  unfold sweepValidatorRewards at h
  cases hloop : entries.foldlM (sweepEntry N stakeKey utxoSet) ⟨[], [], 0⟩ with
  | error e =>
      rw [hloop] at h
      cases h
  | ok swept =>
      rw [hloop, sweepEntries_ok hloop] at h
      simp only [Sweeping.add, List.nil_append, zero_add] at h
      split at h
      · cases h
      split at h
      · cases h
      next hcovers =>
        cases h
        exact ⟨_, _, rfl, rfl, rfl, UInt64.not_le.mp hcovers, rfl, rfl⟩

/-- What is paid out is what was found, less the fee. -/
theorem toNat_dest
    (h : sweepValidatorRewards N stakeKey utxoSet coins entries keystore fee = .ok (.ok result)) :
    result.dest.value.toNat + fee.toNat = result.sweptTotal.toNat := by
  obtain ⟨found, excessR, -, -, -, hcovers, hdest, -⟩ := sweepValidatorRewards_ok h
  have hle : fee ≤ result.sweptTotal := UInt64.le_of_lt hcovers
  rw [hdest, UInt64.toNat_sub_of_le _ _ hle]
  rw [UInt64.le_iff_toNat_le] at hle
  omega

/-- The total is a `u64` sum. -/
theorem toNat_sweptTotal
    (h : sweepValidatorRewards N stakeKey utxoSet coins entries keystore fee = .ok (.ok result)) :
    result.sweptTotal.toNat = unspentTotal N stakeKey utxoSet entries % 2 ^ 64 := by
  obtain ⟨found, excessR, rfl, -, htotal, -, -, -⟩ := sweepValidatorRewards_ok h
  rw [htotal, toNat_sum, List.map_map]
  rfl

/-- The inputs add up to their values and their blinding factors. -/
theorem sumPoints_rewards (found : List (UInt32 × UInt64)) :
    Transaction.sumPoints (found.map fun r => Commitment.new r.2 (rewardBlinding N stakeKey r.1)) =
      (((found.map fun r => r.2.toNat).sum : ℕ) : P.Scalar) • P.B +
        (found.map fun r => rewardBlinding N stakeKey r.1).sum • P.BBlinding := by
  induction found with
  | nil => simp
  | cons r found ih =>
      rw [List.map_cons, List.map_cons, List.map_cons, List.sum_cons, List.sum_cons,
        ← List.singleton_append, Transaction.sumPoints_append, ih]
      simp only [Transaction.sumPoints, List.map_cons, List.map_nil, List.sum_cons, List.sum_nil,
        Commitment.new, Nat.cast_add, add_smul, add_zero]
      abel

/-- The transaction is valid if and only if the values of its inputs add up to what was paid out. -/
theorem validate_sweep_iff
    (h : sweepValidatorRewards N stakeKey utxoSet coins entries keystore fee = .ok (.ok result)) :
    result.transaction.validate = true ↔
      (unspentTotal N stakeKey utxoSet entries : P.Scalar) • P.B =
        (result.sweptTotal.toNat : P.Scalar) • P.B := by
  have htotal := (toNat_dest h).symm
  obtain ⟨found, excessR, rfl, hexcess, -, -, hdest, htx⟩ := sweepValidatorRewards_ok h
  rw [hdest] at htotal
  rw [unspentTotal]
  generalize entries.filterMap (unspentReward N stakeKey utxoSet) = found at *
  have hproof : ∀ o ∈ result.transaction.outputs, verifyRangeProof o.proof o.commitment = true := by
    rw [htx]
    intro o ho
    rw [List.mem_singleton.mp ho]
    exact verify_makeOutput _ _ _ _ _
  have hsigned : ∀ k ∈ result.transaction.kernels, Transaction.kernelSigned k = true := by
    rw [htx]
    intro k hk
    rw [List.mem_singleton.mp hk]
    exact Transaction.kernelSigned_sign _ _ _
  have hspent : Transaction.sumPoints result.transaction.spent =
      (((found.map fun r => r.2.toNat).sum : ℕ) : P.Scalar) • P.B +
        (found.map fun r => rewardBlinding N stakeKey r.1).sum • P.BBlinding := by
    rw [← sumPoints_rewards, htx, Transaction.spent, List.map_map]
    rfl
  have hcreated : Transaction.sumPoints result.transaction.created =
      ((result.sweptTotal - fee).toNat : P.Scalar) • P.B +
        keystore.deriveBlinding N.toWalletCrypto keystore.nextIndex • P.BBlinding := by
    rw [htx]
    simp [Transaction.sumPoints, Transaction.created, sweptOutput, makeOutput, Commitment.new]
  have hexcesses : Transaction.sumPoints result.transaction.excesses =
      (found.map fun r => rewardBlinding N stakeKey r.1).sum • P.BBlinding -
        keystore.deriveBlinding N.toWalletCrypto keystore.nextIndex • P.BBlinding := by
    rw [htx, ← sub_smul, ← hexcess]
    simp [Transaction.sumPoints, Transaction.excesses, Commitment.new]
  have hfee : result.transaction.totalFee = fee := by
    rw [htx]
    simp [Transaction.totalFee]
  rw [Transaction.validate, Transaction.validateWithReward_iff, and_iff_right hproof,
    and_iff_right hsigned, if_pos rfl, hspent, hcreated, hexcesses, hfee, htotal, Nat.cast_add, add_smul,
    UInt64.toNat_zero, Nat.cast_zero, zero_smul, add_zero, ← sub_eq_zero]
  rw [← sub_eq_zero (b := ((result.sweptTotal - fee).toNat : P.Scalar) • P.B + (fee.toNat : P.Scalar) • P.B)]
  apply Eq.congr_left
  abel

end Result

/-! ## Rewards

What a proposer makes of its key is what the sweep looks for: the same blinding factor and the same key of
the note, at the height of its block. The height goes into the note as a `u32`, so this holds below that
limit. -/

/-- A proposer with this stake key: blinding factor and note of its coinbase come from the key. -/
structure Staked (N : NoteCrypto P) (stakeKey : P.Scalar) (e : Proposer.Env P) : Prop where
  privateKey : e.privateKey = stakeKey
  coinbaseBlinding : e.coinbaseBlinding = coinbaseBlinding N.toWalletCrypto stakeKey
  coinbaseNote : ∃ nonce,
    e.coinbaseNote = sealNote N.toWalletCrypto (coinbaseNoteKey N.toWalletCrypto stakeKey) nonce

/-- A block that a proposer with this stake key has made, below height `2 ^ 32`. -/
structure Reward (N : NoteCrypto P) (stakeKey : P.Scalar) where
  env : Proposer.Env P
  staked : Staked N stakeKey env
  state : ChainState P
  drained : Proposer.Drained P
  validator : Validator P
  height_lt : (Proposer.nextHeight state).toNat < 2 ^ 32

namespace Reward

variable {stakeKey : P.Scalar} (r : Reward N stakeKey)

def block : Block P :=
  Proposer.assembleBlock r.env r.state r.drained r.validator

def height : UInt64 :=
  Proposer.nextHeight r.state

def value : UInt64 :=
  Proposer.coinbaseValue r.height r.drained.tx

/-- Its coinbase output. -/
def output : Output P :=
  let blinding := r.env.coinbaseBlinding r.height
  ⟨Commitment.new r.value blinding, r.env.prove r.value blinding,
    r.env.coinbaseNote r.height.toUInt32 r.value⟩

/-- It comes after the outputs of the transactions. -/
theorem outputs_block : r.block.body.outputs = r.drained.tx.outputs ++ [r.output] :=
  rfl

/-- What the sweep looks for is what the proposer made. -/
theorem isReward : IsReward N stakeKey r.output.scanEntry r.height.toUInt32 r.value := by
  obtain ⟨nonce, hnote⟩ := r.staked.coinbaseNote
  have hheight : r.height.toUInt32.toUInt64 = r.height := by
    apply UInt64.toNat_inj.mp
    rw [UInt32.toNat_toUInt64, UInt64.toNat_toUInt32]
    exact Nat.mod_eq_of_lt r.height_lt
  refine ⟨⟨nonce, ?_⟩, ?_⟩
  · show hexDecode (hexEncode (r.env.coinbaseNote r.height.toUInt32 r.value)) = _
    rw [hexDecode_hexEncode, hnote]
  · show (Commitment.new r.value (r.env.coinbaseBlinding r.height)).toHex = _
    rw [r.staked.coinbaseBlinding, rewardBlinding, hheight]

/-- In the UTXO set the caller has. -/
def Unspent (utxoSet : List String) : Prop :=
  r.output.commitment.toHex ∈ utxoSet

instance (utxoSet : List String) : Decidable (r.Unspent utxoSet) :=
  inferInstanceAs (Decidable (r.output.commitment.toHex ∈ utxoSet))

end Reward

/-- The result of a sweep takes these rewards, each once, and pays them out less the fee. -/
structure Sweeps {stakeKey : P.Scalar} (rewards : List (Reward N stakeKey)) (keystore : Keystore)
    (fee : UInt64) (result : SweepResult P) : Prop where
  inputs : result.transaction.spent.Perm (rewards.map fun r => r.output.commitment)
  nodup : result.transaction.spent.Nodup
  total : result.sweptTotal.toNat = (rewards.map fun r => r.value.toNat).sum
  dest : result.dest.value.toNat + fee.toNat = result.sweptTotal.toNat
  paid : result.transaction.created = [Commitment.new result.dest.value
    (keystore.deriveBlinding N.toWalletCrypto keystore.nextIndex)]
  valid : result.transaction.validate = true

section Sweep

variable {stakeKey : P.Scalar} {utxoSet : List String} {entries : List ScanEntry}
  {coins : SweepCoins N.toWalletCrypto} {keystore : Keystore} {fee : UInt64} {result : SweepResult P}

/-- What is found among the rewards are the unspent ones. -/
theorem filterMap_unspentReward (rewards : List (Reward N stakeKey)) :
    (rewards.map fun r => r.output.scanEntry).filterMap (unspentReward N stakeKey utxoSet) =
      (rewards.filter fun r => r.Unspent utxoSet).map fun r => (r.height.toUInt32, r.value) := by
  induction rewards with
  | nil => rfl
  | cons r rewards ih =>
      rw [List.map_cons, List.filterMap_cons, List.filter_cons, ih]
      by_cases hunspent : r.Unspent utxoSet
      · rw [unspentReward_eq_some_iff.mpr ⟨hunspent, r.isReward⟩, if_pos (decide_eq_true hunspent)]
        rfl
      · have hnone : unspentReward N stakeKey utxoSet r.output.scanEntry = none := by
          rw [Option.eq_none_iff_forall_ne_some]
          intro found hfound
          exact hunspent (unspentReward_eq_some_iff.mp hfound).1
        rw [hnone, if_neg (by simpa using hunspent)]

theorem filterMap_others {others : List ScanEntry}
    (hothers : ∀ entry ∈ others, ∀ height value, ¬ IsReward N stakeKey entry height value) :
    others.filterMap (unspentReward N stakeKey utxoSet) = [] := by
  rw [List.filterMap_eq_nil_iff]
  intro entry hentry
  rw [Option.eq_none_iff_forall_ne_some]
  intro found hfound
  exact hothers entry hentry _ _ (unspentReward_eq_some_iff.mp hfound).2

/-- Entries under distinct commitments are swept once. -/
theorem nodup_swept (hdistinct : (entries.map ScanEntry.commitmentHex).Nodup) :
    ((entries.filterMap (unspentReward N stakeKey utxoSet)).map fun r =>
      Commitment.new r.2 (rewardBlinding N stakeKey r.1)).Nodup := by
  apply List.Nodup.of_map Commitment.toHex
  rw [List.map_map]
  refine hdistinct.sublist ?_
  clear hdistinct
  induction entries with
  | nil => exact List.Sublist.refl _
  | cons entry entries ih =>
      rw [List.filterMap_cons, List.map_cons]
      cases hfound : unspentReward N stakeKey utxoSet entry with
      | none => exact ih.cons _
      | some found =>
          rw [← ScanEntry.hex_of_ownedUnspent hfound]
          exact ih.cons_cons _

/-- **A sweep takes the rewards of its key.** The entries are the coinbases the key has made, in any order
and among others that are of no coinbase of the key; if a sweep of them succeeds and the values fit `u64`,
its inputs are the unspent ones. -/
theorem sweep_takes_rewards {rewards : List (Reward N stakeKey)} {others : List ScanEntry}
    (hentries : entries.Perm ((rewards.map fun r => r.output.scanEntry) ++ others))
    (hothers : ∀ entry ∈ others, ∀ height value, ¬ IsReward N stakeKey entry height value)
    (hdistinct : (entries.map ScanEntry.commitmentHex).Nodup)
    (hfits : ((rewards.filter fun r => r.Unspent utxoSet).map fun r => r.value.toNat).sum < 2 ^ 64)
    (h : sweepValidatorRewards N stakeKey utxoSet coins entries keystore fee = .ok (.ok result)) :
    Sweeps (rewards.filter fun r => r.Unspent utxoSet) keystore fee result := by
  have hnodup : ((entries.filterMap (unspentReward N stakeKey utxoSet)).map fun r =>
      Commitment.new r.2 (rewardBlinding N stakeKey r.1)).Nodup := nodup_swept hdistinct
  obtain ⟨found, excessR, hfound, -, -, -, hdest, htx⟩ := sweepValidatorRewards_ok h
  rw [← hfound] at hnodup
  have hperm : found.Perm ((rewards.filter fun r => r.Unspent utxoSet).map
      fun r => (r.height.toUInt32, r.value)) := by
    have hall := hentries.filterMap (unspentReward N stakeKey utxoSet)
    rw [List.filterMap_append, filterMap_others hothers, List.append_nil, filterMap_unspentReward] at hall
    rw [hfound]
    exact hall
  have hspent : result.transaction.spent =
      found.map fun r => Commitment.new r.2 (rewardBlinding N stakeKey r.1) := by
    rw [htx, Transaction.spent, List.map_map]
    rfl
  have hsum : (found.map fun r => r.2.toNat).sum =
      ((rewards.filter fun r => r.Unspent utxoSet).map fun r => r.value.toNat).sum := by
    rw [(hperm.map _).sum_eq, List.map_map]
    rfl
  have htotal : result.sweptTotal.toNat = unspentTotal N stakeKey utxoSet entries := by
    rw [toNat_sweptTotal h]
    exact Nat.mod_eq_of_lt (by rwa [unspentTotal, ← hfound, hsum])
  refine ⟨?_, hspent ▸ hnodup, ?_, toNat_dest h, ?_, ?_⟩
  · rw [hspent]
    refine (hperm.map _).trans (List.Perm.of_eq ?_)
    rw [List.map_map]
    apply List.map_congr_left
    intro r _
    exact Commitment.toHex_injective r.isReward.commits.symm
  · rw [htotal, unspentTotal, ← hfound, hsum]
  · rw [htx, hdest]
    rfl
  · rw [validate_sweep_iff h, htotal]

end Sweep

namespace Devnet

/-- The proposer of the devnet, with this stake key. -/
def stakedEnv (key : BitVec 256) : Proposer.Env crypto :=
  { env with
    privateKey := key
    coinbaseBlinding := coinbaseBlinding (P := crypto) noteCrypto.toWalletCrypto key
    coinbaseNote := sealNote (P := crypto) noteCrypto.toWalletCrypto
      (coinbaseNoteKey (P := crypto) noteCrypto.toWalletCrypto key) (List.Vector.replicate 12 0) }

/-- The coinbase of the block on top of height `n`, with nothing else in the block. -/
def reward (key : BitVec 256) (n : UInt16) : Reward (P := crypto) noteCrypto key where
  env := stakedEnv key
  staked := ⟨rfl, rfl, List.Vector.replicate 12 0, rfl⟩
  state := { ChainState.new with currentHeight := n.toUInt64 }
  drained := ⟨none, [], [], [], [], [], []⟩
  validator := ⟨genesisDefault crypto, 0, Signature.zero⟩
  height_lt := by
    show (n.toUInt64 + 1).toNat < 2 ^ 32
    have hlt := n.toNat_lt
    rw [UInt64.toNat_add, UInt16.toNat_toUInt64]
    show (n.toNat + 1) % 2 ^ 64 < 2 ^ 32
    omega

def rewardEntry (key : BitVec 256) (n : UInt16) : ScanEntry :=
  (reward key n).output.scanEntry

def sweepCoins : SweepCoins noteCrypto.toWalletCrypto :=
  ⟨⟨(), List.Vector.replicate 12 0⟩, (5 : BitVec 256)⟩

def stakeWallet : Keystore := ⟨natBytes 1, 0⟩

/-- The owner of stake key 42 sweeps. -/
def sweep (utxoSet : List String) (entries : List ScanEntry) (fee : UInt64) :
    Except Panic (Except SweepError (SweepResult crypto)) :=
  sweepValidatorRewards (P := crypto) noteCrypto (42 : BitVec 256) utxoSet sweepCoins entries stakeWallet fee

/-- Three rewards of the key, among one of another key and an entry that is no hex. -/
def scanned : List ScanEntry :=
  [rewardEntry 43 0, rewardEntry 42 2, ⟨"zz", "zz"⟩, rewardEntry 42 0, rewardEntry 42 1]

/-- The second of the three is spent. -/
def unspentHex : List String :=
  [rewardEntry 43 0, rewardEntry 42 0, rewardEntry 42 2].map ScanEntry.commitmentHex

-- evaluated once, for the sweep and for its admission
theorem scanned_run :
    (scanned.map ScanEntry.commitmentHex).Nodup ∧
    (∀ entry ∈ [rewardEntry 43 0, ⟨"zz", "zz"⟩], entry.opened noteCrypto
      (coinbaseNoteKey (P := crypto) noteCrypto.toWalletCrypto (42 : BitVec 256)) = .ok none) ∧
    planPrice noteCrypto.toWalletCrypto sweepCoins.dest (scanned.filterMap
      (unspentReward (P := crypto) noteCrypto (42 : BitVec 256) unspentHex)).length false ≤ 5 ∧
    unspentTotal (P := crypto) noteCrypto (42 : BitVec 256) unspentHex scanned < 2 ^ 64 ∧
    (match sweep unspentHex scanned 5 with
      | .ok (.ok result) => decide (result.sweptCount = 2)
      | _ => false) = true := by
  decide +kernel

/-- The first and the third reward are swept. -/
theorem sweep_takes_unspent :
    ∃ result, sweep unspentHex scanned 5 = .ok (.ok result) ∧ result.sweptCount = 2 ∧
      Sweeps ([reward 42 0, reward 42 1, reward 42 2].filter fun r => r.Unspent unspentHex) stakeWallet 5
        result := by
  obtain ⟨hdistinct, hclosed, -, -, hrun⟩ := scanned_run
  have hrewards : scanned.Perm (([reward 42 0, reward 42 1, reward 42 2].map
      fun r => r.output.scanEntry) ++ [rewardEntry 43 0, ⟨"zz", "zz"⟩]) := by
    rw [List.perm_iff_count]
    intro entry
    simp only [scanned, rewardEntry, List.map_cons, List.map_nil, List.cons_append, List.nil_append,
      List.count_cons, List.count_nil]
    omega
  have hothers : ∀ entry ∈ [rewardEntry 43 0, ⟨"zz", "zz"⟩], ∀ height value,
      ¬ IsReward (P := crypto) noteCrypto (42 : BitVec 256) entry height value := by
    intro entry hentry height value hreward
    cases (hclosed entry hentry).symm.trans (ScanEntry.holds_iff.mp hreward).1
  split at hrun
  next result hresult =>
    exact ⟨result, hresult, of_decide_eq_true hrun,
      sweep_takes_rewards hrewards hothers hdistinct (by decide +kernel) hresult⟩
  · cases hrun

end Devnet

/-! ## Admission

The fee is the caller's, and the size grows by 40 bytes with each reward. So a sweep is admitted for few
rewards and refused for many at the same fee, and there is a largest number that passes. -/

section Admission

variable {stakeKey : P.Scalar} {utxoSet : List String} {entries : List ScanEntry}
  {coins : SweepCoins N.toWalletCrypto} {keystore : Keystore} {fee : UInt64} {result : SweepResult P}

/-- The values of as many rewards as a `Vec` can hold are far from the order of the curve. -/
theorem unspentTotal_lt (hlength : entries.length < 2 ^ 64) :
    unspentTotal N stakeKey utxoSet entries < 2 ^ 252 := by
  have hle : unspentTotal N stakeKey utxoSet entries ≤
      ((entries.filterMap (unspentReward N stakeKey utxoSet)).map fun r => r.2.toNat).length • 2 ^ 64 := by
    apply List.sum_le_card_nsmul
    intro v hv
    obtain ⟨r, -, rfl⟩ := List.mem_map.mp hv
    exact r.2.toNat_lt.le
  have hfound : (entries.filterMap (unspentReward N stakeKey utxoSet)).length ≤ entries.length :=
    List.length_filterMap_le _ _
  rw [List.length_map, smul_eq_mul] at hle
  omega

/-- The transaction of a sweep is valid if and only if the values fit `u64`. -/
theorem validate_sweep_iff_fits (hB : LargeOrder P) (hlength : entries.length < 2 ^ 64)
    (h : sweepValidatorRewards N stakeKey utxoSet coins entries keystore fee = .ok (.ok result)) :
    result.transaction.validate = true ↔ unspentTotal N stakeKey utxoSet entries < 2 ^ 64 := by
  have hsmall : result.sweptTotal.toNat < 2 ^ 252 := by
    have hlt := result.sweptTotal.toNat_lt
    omega
  -- both sides are below the order of the curve, so equal points are equal sums
  rw [validate_sweep_iff h, hB.smul_inj (unspentTotal_lt hlength) hsmall, toNat_sweptTotal h]
  omega

/-- The fee that is required grows with the number of rewards. -/
theorem requiredFee_sweep
    (h : sweepValidatorRewards N stakeKey utxoSet coins entries keystore fee = .ok (.ok result)) :
    (requiredFee (Transaction.serializedSize N.toWalletCrypto) result.transaction).toNat =
      planPrice N.toWalletCrypto coins.dest
        (entries.filterMap (unspentReward N stakeKey utxoSet)).length false := by
  obtain ⟨found, excessR, rfl, -, -, -, -, htx⟩ := sweepValidatorRewards_ok h
  have houtputs : (result.transaction.outputs.map (Output.serializedSize N.toWalletCrypto)).sum =
      (makeOutput N.toWalletCrypto coins.dest zeroHash 0 0 0).serializedSize N.toWalletCrypto := by
    rw [htx]
    show (sweptOutput N coins keystore (result.sweptTotal - fee)).serializedSize N.toWalletCrypto + 0 = _
    rw [add_zero, sweptOutput, serializedSize_makeOutput]
  have hkernels : result.transaction.kernels.length = 1 := by
    rw [htx]
    rfl
  rw [requiredFee_eq_planPrice coins.dest false houtputs hkernels, htx, List.length_map]

/-- **When a sweep is admitted.** A mempool with room takes the transaction if and only if the fee pays for
that many inputs, and what they are worth fits `u64`. -/
theorem sweep_admitted_iff (hB : LargeOrder P) {m : Mempool P} (hroom : m.pendingTxs.length < maxPendingTxs)
    (hlength : entries.length < 2 ^ 64)
    (h : sweepValidatorRewards N stakeKey utxoSet coins entries keystore fee = .ok (.ok result)) :
    (m.addTransaction (Transaction.serializedSize N.toWalletCrypto) result.transaction).isSome ↔
      planPrice N.toWalletCrypto coins.dest
          (entries.filterMap (unspentReward N stakeKey utxoSet)).length false ≤ fee.toNat ∧
        unspentTotal N stakeKey utxoSet entries < 2 ^ 64 := by
  have hfee : txFee result.transaction = fee := by
    obtain ⟨found, excessR, -, -, -, -, -, htx⟩ := sweepValidatorRewards_ok h
    rw [htx]
    simp [txFee]
  rw [← validate_sweep_iff_fits hB hlength h, ← requiredFee_sweep h, Option.isSome_iff_exists]
  constructor
  · rintro ⟨m', hm'⟩
    obtain ⟨⟨-, hvalid, hpays⟩, -⟩ := Mempool.addTransaction_eq_some.mp hm'
    rw [hfee] at hpays
    exact ⟨UInt64.le_iff_toNat_le.mp hpays, hvalid⟩
  · rintro ⟨hpays, hvalid⟩
    refine ⟨_, Mempool.addTransaction_eq_some.mpr ⟨⟨hroom, hvalid, ?_⟩, rfl⟩⟩
    rw [hfee]
    exact UInt64.le_iff_toNat_le.mpr hpays

end Admission

namespace Devnet

/-- Two rewards can be swept at the suggested fee. -/
theorem sweep_two_admitted :
    ∃ result, sweep unspentHex scanned Mempool.suggestedFee = .ok (.ok result) ∧
      ((Mempool.new : Mempool crypto).addTransaction
        (Transaction.serializedSize noteCrypto.toWalletCrypto) result.transaction).isSome := by
  obtain ⟨-, -, hpays, hfits, hrun⟩ := scanned_run
  have hfee : Mempool.suggestedFee = 5 := by decide
  rw [hfee]
  split at hrun
  next result hresult =>
    exact ⟨result, hresult,
      (sweep_admitted_iff largeOrder (by decide) (by decide) hresult).mpr ⟨hpays, hfits⟩⟩
  · cases hrun

/-- With a third one the fee is no longer enough. -/
theorem sweep_three_refused :
    ∃ result, sweep (scanned.map ScanEntry.commitmentHex) scanned Mempool.suggestedFee = .ok (.ok result) ∧
      ¬ ((Mempool.new : Mempool crypto).addTransaction
        (Transaction.serializedSize noteCrypto.toWalletCrypto) result.transaction).isSome := by
  have hrun : (match sweep (scanned.map ScanEntry.commitmentHex) scanned Mempool.suggestedFee with
      | .ok (.ok result) => !((Mempool.new : Mempool crypto).addTransaction
          (Transaction.serializedSize noteCrypto.toWalletCrypto) result.transaction).isSome
      | _ => false) = true := by
    decide +kernel
  split at hrun
  next result hresult => exact ⟨result, hresult, by simpa using hrun⟩
  · cases hrun

end Devnet

end Haze
