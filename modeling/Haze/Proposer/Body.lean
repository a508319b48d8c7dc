import Haze.Chain.Checks
import Haze.Chain.Stakes
import Haze.Proposer.Roots

/-!
# The body a round builds

The body is the cut-through of the selected transactions with a coinbase of the reward and all their
fees. Two questions are answered exactly: when it balances against the reward of its height, and when
a block that carries nothing else is applied by the node that built it.

What is assumed of the curve is that small multiples of `B` differ, and of the range proofs that a
proof made for a value verifies against the commitment to it.
-/

namespace Haze

variable {P : Crypto}

/-- No multiple of `B` below `2 ^ 252` vanishes; ristretto255 has a prime order above that. -/
def LargeOrder (P : Crypto) : Prop :=
  ∀ n : ℕ, n < 2 ^ 252 → (n : P.Scalar) • P.B = 0 → n = 0

theorem LargeOrder.smul_inj (h : LargeOrder P) {a b : ℕ} (ha : a < 2 ^ 252) (hb : b < 2 ^ 252) :
    (a : P.Scalar) • P.B = (b : P.Scalar) • P.B ↔ a = b := by
  constructor
  · intro heq
    rcases Nat.le_total a b with hle | hle
    · have hzero : ((b - a : ℕ) : P.Scalar) • P.B = 0 := by
        rw [Nat.cast_sub hle, sub_smul, heq, sub_self]
      have := h (b - a) (by omega) hzero
      omega
    · have hzero : ((a - b : ℕ) : P.Scalar) • P.B = 0 := by
        rw [Nat.cast_sub hle, sub_smul, heq, sub_self]
      have := h (a - b) (by omega) hzero
      omega
  · rintro rfl
    rfl

theorem verifyRangeProof_of_verifyRange (proof : P.RangeProof) (c : Commitment P)
    (h : P.verifyRange proof (P.compress c.asPoint) = true) : verifyRangeProof proof c = true :=
  h

namespace Devnet

theorem largeOrder : LargeOrder crypto := by
  intro n hn h
  have hcast : (BitVec.ofNat 256 n) * (1 : BitVec 256) = 0 := h
  rw [mul_one] at hcast
  have hnat := congrArg BitVec.toNat hcast
  rw [BitVec.toNat_ofNat, Nat.mod_eq_of_lt (by omega)] at hnat
  exact hnat

/-- On the devnet a range proof is the opening, so it verifies. -/
theorem verifyRangeProof_env (value : UInt64) (blinding : BitVec 256) :
    verifyRangeProof (P := crypto) (env.prove value blinding) (Commitment.new value blinding) =
      true :=
  verifyRangeProof_of_verifyRange (P := crypto) _ _ (verifyRange_opening value blinding)

end Devnet

namespace Proposer

open Transaction

/-! ## Fees

The body of a round is an aggregate. Cut-through leaves its kernels alone, so its fees are those of the
transactions, summed up in a `u64`. -/

/-- The fees of a list of transactions, as a number. -/
def feeTotal (txs : List (Transaction P)) : ℕ :=
  (txs.map fun tx => tx.totalFee.toNat).sum

/-- The fees of the aggregate are those of the transactions, up to overflow. -/
theorem toNat_totalFee_aggregate (txs : List (Transaction P)) :
    (aggregateAndCutThrough txs).totalFee.toNat = feeTotal txs % 2 ^ 64 := by
  have hsum : (aggregateAndCutThrough txs).totalFee = (txs.map Transaction.totalFee).sum := by
    show ((txs.flatMap Transaction.kernels).map TxKernel.fee).sum = _
    induction txs with
    | nil => rfl
    | cons tx txs ih =>
        rw [List.flatMap_cons, List.map_append, List.sum_append, ih, List.map_cons, List.sum_cons]
        rfl
  rw [hsum, toNat_sum, List.map_map]
  rfl

/-- Valid transactions put together: what they spend is what they create, their excesses and their
fees. -/
theorem sumPoints_spent {txs : List (Transaction P)} (h : ∀ tx ∈ txs, tx.validate = true) :
    sumPoints (txs.flatMap spent) =
      sumPoints (txs.flatMap created) + sumPoints (txs.flatMap excesses)
        + (feeTotal txs : P.Scalar) • P.B := by
  induction txs with
  | nil => simp [feeTotal]
  | cons tx txs ih =>
      obtain ⟨hval, hrest⟩ := List.forall_mem_cons.mp h
      simp only [List.flatMap_cons, sumPoints_append, balance_of_fee hval, ih hrest, feeTotal,
        List.map_cons, List.sum_cons, Nat.cast_add, add_smul]
      abel

/-! ## The coinbase

The coinbase output takes the reward and the fees, and one kernel balances its blinding factor. The body is
valid when the value of that output, a `u64`, is the sum it stands for; at heights without a reward the fees
are demanded twice. -/

section Coinbase

variable {txs : List (Transaction P)} {height : UInt64} {r nonce : P.Scalar} {proof : P.RangeProof}
  {note : List UInt8}

/-- The fee that a body is charged with; a body with a reward is charged none. -/
def chargedFee (height : UInt64) (txs : List (Transaction P)) : UInt64 :=
  if blockRewardAt height = 0 then (aggregateAndCutThrough txs).totalFee else 0

theorem totalFee_withCoinbase (tx : Transaction P) :
    (withCoinbase height tx r proof note nonce).totalFee = tx.totalFee := by
  simp [withCoinbase, totalFee]

theorem outputs_verify (h : ∀ tx ∈ txs, tx.validate = true) :
    ∀ o ∈ (aggregateAndCutThrough txs).outputs, verifyRangeProof o.proof o.commitment = true := by
  intro o ho
  obtain ⟨tx, htx, ho'⟩ := List.mem_flatMap.mp ((CutThrough.cancelled txs).right.subset ho)
  exact (validateWithReward_iff.mp (h tx htx)).1 o ho'

theorem kernels_signed (h : ∀ tx ∈ txs, tx.validate = true) :
    ∀ k ∈ (aggregateAndCutThrough txs).kernels, kernelSigned k = true := by
  intro k hk
  obtain ⟨tx, htx, hk'⟩ := List.mem_flatMap.mp hk
  exact (validateWithReward_iff.mp (h tx htx)).2.1 k hk'

theorem sumPoints_created_withCoinbase (tx : Transaction P) :
    sumPoints (withCoinbase height tx r proof note nonce).created =
      sumPoints tx.created + ((coinbaseValue height tx).toNat : P.Scalar) • P.B
        + r • P.BBlinding := by
  simp [withCoinbase, created, sumPoints, Commitment.new, add_assoc]

theorem sumPoints_excesses_withCoinbase (tx : Transaction P) :
    sumPoints (withCoinbase height tx r proof note nonce).excesses =
      sumPoints tx.excesses - r • P.BBlinding := by
  simp [withCoinbase, excesses, sumPoints, Commitment.new, sub_eq_add_neg]

/-- What is left of the body's balance: the fees and the reward that go in against the coinbase and the
fee that is charged. -/
theorem withCoinbase_balance (h : ∀ tx ∈ txs, tx.validate = true) (fee : UInt64)
    {body : Transaction P}
    (hbody : body = withCoinbase height (aggregateAndCutThrough txs) r proof note nonce) :
    sumPoints body.spent - sumPoints body.created - (fee.toNat : P.Scalar) • P.B
        + ((blockRewardAt height).toNat : P.Scalar) • P.B - sumPoints body.excesses =
      ((feeTotal txs + (blockRewardAt height).toNat : ℕ) : P.Scalar) • P.B
        - (((coinbaseValue height (aggregateAndCutThrough txs)).toNat + fee.toNat : ℕ) : P.Scalar)
          • P.B := by
  have hspent : sumPoints (aggregateAndCutThrough txs).spent
        - sumPoints (aggregateAndCutThrough txs).created =
      sumPoints (aggregateAndCutThrough txs).excesses + (feeTotal txs : P.Scalar) • P.B := by
    rw [CutThrough.sumPoints_sub, CutThrough.excesses_eq, sumPoints_spent h]
    abel
  have hsame : body.spent = (aggregateAndCutThrough txs).spent := by
    rw [hbody]
    rfl
  rw [hsame, hbody, sumPoints_created_withCoinbase, sumPoints_excesses_withCoinbase,
    eq_add_of_sub_eq hspent, Nat.cast_add, Nat.cast_add, add_smul, add_smul]
  abel

/-- The body passes exactly when the fees and the reward that go into it are the coinbase and the fee
it is charged with. -/
theorem withCoinbase_valid_iff (h : ∀ tx ∈ txs, tx.validate = true)
    (hproof : verifyRangeProof proof
      (Commitment.new (coinbaseValue height (aggregateAndCutThrough txs)) r) = true) :
    (withCoinbase height (aggregateAndCutThrough txs) r proof note nonce).validateWithReward
        (blockRewardAt height) = true ↔
      ((feeTotal txs + (blockRewardAt height).toNat : ℕ) : P.Scalar) • P.B =
        (((coinbaseValue height (aggregateAndCutThrough txs)).toNat
          + (chargedFee height txs).toNat : ℕ) : P.Scalar) • P.B := by
  generalize hbody : withCoinbase height (aggregateAndCutThrough txs) r proof note nonce = body
  have hbalance := withCoinbase_balance h (chargedFee height txs) hbody.symm
  have hfee : body.totalFee = (aggregateAndCutThrough txs).totalFee := by
    rw [← hbody, totalFee_withCoinbase]
  rw [validateWithReward_iff, hfee]
  constructor
  · rintro ⟨-, -, hb⟩
    rw [← sub_eq_zero, ← hbalance, sub_eq_zero]
    exact hb
  · intro hb
    refine ⟨?_, ?_, ?_⟩
    · rw [← hbody]
      show ∀ o ∈ (aggregateAndCutThrough txs).outputs ++ [_], _
      rw [List.forall_mem_append]
      exact ⟨outputs_verify h, by simpa using hproof⟩
    · rw [← hbody]
      show ∀ k ∈ (aggregateAndCutThrough txs).kernels ++ [_], _
      rw [List.forall_mem_append]
      exact ⟨kernels_signed h, by simpa using kernelSigned_sign _ _ 0⟩
    · rw [← sub_eq_zero, ← hbalance, sub_eq_zero] at hb
      exact hb

/-- The coinbase is the reward with the fees, up to overflow. -/
theorem toNat_coinbaseValue (height : UInt64) (txs : List (Transaction P)) :
    (coinbaseValue height (aggregateAndCutThrough txs)).toNat =
      (feeTotal txs + (blockRewardAt height).toNat) % 2 ^ 64 := by
  show (blockRewardAt height + (aggregateAndCutThrough txs).totalFee).toNat = _
  rw [UInt64.toNat_add, toNat_totalFee_aggregate, Nat.add_mod_mod, Nat.add_comm]

/-- Ten halvings take the reward to zero. -/
theorem blockRewardAt_eq_zero_iff (height : UInt64) :
    blockRewardAt height = 0 ↔ 126_000_000 ≤ height.toNat := by
  have hhalvings : (height / halvingIntervalBlocks).toNat = height.toNat / 12_600_000 := by
    rw [UInt64.toNat_div]
    rfl
  have hheight : 126_000_000 ≤ height.toNat ↔ 10 ≤ (height / halvingIntervalBlocks).toNat := by
    rw [hhalvings]
    omega
  rw [hheight, blockRewardAt]
  generalize height / halvingIntervalBlocks = halvings
  show (if halvings ≥ 64 then 0 else initialBlockReward >>> halvings) = 0 ↔ _
  split
  next h =>
    have h64 : 64 ≤ halvings.toNat := h
    exact iff_of_true rfl (by omega)
  next h =>
    have h64 : halvings.toNat < 64 := Nat.not_le.mp h
    have hshift : (initialBlockReward >>> halvings).toNat = 540 / 2 ^ halvings.toNat := by
      rw [UInt64.toNat_shiftRight, Nat.mod_eq_of_lt h64, Nat.shiftRight_eq_div_pow]
      rfl
    rw [← UInt64.toNat_inj, hshift, UInt64.toNat_zero, Nat.div_eq_zero_iff]
    constructor
    · intro hlt
      by_contra hsmall
      have hpow : 2 ^ halvings.toNat ≤ 2 ^ 9 := Nat.pow_le_pow_right (by decide) (by omega)
      rcases hlt with hlt | hlt
      · exact absurd hlt (by simp)
      · omega
    · intro hten
      have hpow : 2 ^ 10 ≤ 2 ^ halvings.toNat := Nat.pow_le_pow_right (by decide) hten
      omega

/-- The fees of all kernels, as a number. -/
def kernelFees (txs : List (Transaction P)) : ℕ :=
  ((txs.flatMap kernels).map fun k => k.fee.toNat).sum

/-- While the fees of all kernels fit in a `u64`, no transaction's own sum has wrapped. -/
theorem feeTotal_eq (hfit : kernelFees txs < 2 ^ 64) : feeTotal txs = kernelFees txs := by
  induction txs with
  | nil => rfl
  | cons tx txs ih =>
      have hcons : kernelFees (tx :: txs) =
          (tx.kernels.map fun k => k.fee.toNat).sum + kernelFees txs := by
        simp [kernelFees]
      have hfee : tx.totalFee.toNat = (tx.kernels.map fun k => k.fee.toNat).sum % 2 ^ 64 := by
        rw [totalFee, toNat_sum, List.map_map]
        rfl
      rw [hcons] at hfit ⊢
      rw [← ih (by omega), feeTotal, feeTotal, List.map_cons, List.sum_cons, hfee,
        Nat.mod_eq_of_lt (by omega)]

theorem kernelFees_eq_zero_iff :
    kernelFees txs = 0 ↔ ∀ tx ∈ txs, ∀ k ∈ tx.kernels, k.fee = 0 := by
  simp only [kernelFees, List.sum_eq_zero_iff_forall_eq_nat, List.forall_mem_map, List.mem_flatMap,
    forall_exists_index, and_imp, ← UInt64.toNat_inj, UInt64.toNat_zero]
  exact ⟨fun h tx htx k hk => h k tx htx hk, fun h k tx htx hk => h tx htx k hk⟩

/-- **The coinbase balances exactly where there is a reward or no fee.** From height 126,000,000 on
there is no reward; the proposer still pays itself the fees, and the body is charged with them. -/
theorem coinbase_balances_iff (hB : LargeOrder P) {prove : UInt64 → P.Scalar → P.RangeProof}
    (hprove : ∀ value blinding,
      verifyRangeProof (prove value blinding) (Commitment.new value blinding) = true)
    (h : ∀ tx ∈ txs, tx.validate = true)
    (hfit : kernelFees txs + (blockRewardAt height).toNat < 2 ^ 64) :
    (withCoinbase height (aggregateAndCutThrough txs) r
        (prove (coinbaseValue height (aggregateAndCutThrough txs)) r) note nonce).validateWithReward
        (blockRewardAt height) = true ↔
      height.toNat < 126_000_000 ∨ ∀ tx ∈ txs, ∀ k ∈ tx.kernels, k.fee = 0 := by
  have hfees : feeTotal txs = kernelFees txs := feeTotal_eq (by omega)
  have hcharged : (chargedFee height txs).toNat =
      if blockRewardAt height = 0 then kernelFees txs else 0 := by
    rw [chargedFee]
    split
    · rw [toNat_totalFee_aggregate, hfees, Nat.mod_eq_of_lt (by omega)]
    · rfl
  rw [withCoinbase_valid_iff h (hprove _ _), toNat_coinbaseValue, hfees, Nat.mod_eq_of_lt hfit,
    hcharged, hB.smul_inj (by omega) (by split <;> omega), ← kernelFees_eq_zero_iff, ← Nat.not_le,
    ← blockRewardAt_eq_zero_iff]
  split
  next hzero => simp [hzero]
  next hpos => simp [hpos]

end Coinbase

-- the body of one payment that burns a fee of 5, with the devnet's coinbase
def paidBody (height : UInt64) : Transaction Devnet.crypto :=
  let tx := aggregateAndCutThrough [Devnet.payment 1000 11 12 5]
  withCoinbase (P := Devnet.crypto) height tx (77 : BitVec 256)
    (Devnet.env.prove (coinbaseValue height tx) (77 : BitVec 256)) [] (3 : BitVec 256)

theorem paidBody_balances : (paidBody 1).validateWithReward (blockRewardAt 1) = true := by
  have hvalid : ∀ tx ∈ [Devnet.payment 1000 11 12 5], tx.validate = true := by decide +kernel
  refine (coinbase_balances_iff (P := Devnet.crypto) Devnet.largeOrder Devnet.verifyRangeProof_env
    hvalid (by decide +kernel)).mpr (Or.inl (by decide))

/-- At the first height without a reward the same payment no longer balances. -/
theorem paidBody_unbalanced :
    (Devnet.payment 1000 11 12 5).validate = true ∧
      kernelFees [Devnet.payment 1000 11 12 5] + (blockRewardAt 126_000_000).toNat < 2 ^ 64 ∧
      (paidBody 126_000_000).validateWithReward (blockRewardAt 126_000_000) = false := by
  decide +kernel

/-! ## When the proposer's block is applied

A block without operations is refused for its body or for a coin of it. Everything else in the header and
the lists is what the chain expects, because the proposer has taken it from the chain. -/

section Applied

variable {e : Env P} {s : ChainState P} {m : Mempool P} {validator : Validator P}

/-- The commitment is a tranche that is not open yet. -/
def lockedAt (c : Commitment P) (height : UInt64) : Bool :=
  (lockedGenesisOutputs P).any fun l => c == l.1 && height < l.2

theorem spendsLockedOutputEarly_eq_false_iff {tx : Transaction P} {height : UInt64} :
    spendsLockedOutputEarly tx.inputs height = false ↔
      ∀ c ∈ tx.spent, lockedAt c height = false := by
  simp only [spendsLockedOutputEarly, List.any_eq_false, lockedAt, Transaction.spent,
    List.forall_mem_map, Bool.not_eq_true]

/-- With nothing pending the body is the aggregate of nothing. -/
theorem drain_tx (m : Mempool P) : (drain m).1.tx = aggregateAndCutThrough m.selectedTxs := by
  show m.aggregate.1.getD ⟨[], [], []⟩ = _
  unfold Mempool.aggregate
  split
  next hempty =>
    have hnil : m.pendingTxs = [] := List.isEmpty_iff.mp hempty
    simp [Mempool.selectedTxs, Queue.byFee, hnil, aggregateAndCutThrough, Cancel.cancel]
  next => rfl

theorem mem_of_mem_selectedTxs {tx : Transaction P} (h : tx ∈ m.selectedTxs) :
    tx ∈ m.pendingTxs :=
  (Queue.byFee_perm txFee m.pendingTxs).mem_iff.mp (List.mem_of_mem_take h)

theorem feeTotal_lt {txs : List (Transaction P)} (h : txs.length ≤ maxTxsPerBlock) :
    feeTotal txs ≤ 50 * 2 ^ 64 := by
  have hle : feeTotal txs ≤ txs.length * 2 ^ 64 := by
    clear h
    induction txs with
    | nil => simp [feeTotal]
    | cons tx txs ih =>
        have hfee := tx.totalFee.toNat_lt
        rw [feeTotal] at ih ⊢
        rw [List.map_cons, List.sum_cons, List.length_cons]
        omega
  exact hle.trans (Nat.mul_le_mul_right _ h)

/-- The node signs for a registered stake that its key opens, or for the bootstrap output. -/
theorem myValidator_cases (h : myValidator e s = some validator) :
    (validator ∈ s.activeValidators ∧ validator.commitment.asPoint
        - (validator.value.toNat : P.Scalar) • P.B = e.privateKey • P.BBlinding) ∨
      (s.activeValidators = [] ∧ e.privateKey = P.genesisValidatorBlinding ∧
        validator.commitment = genesisDefault P ∧ validator.value = genesisStake) := by
  cases hfind : s.activeValidators.find? fun v =>
      v.commitment.asPoint - (v.value.toNat : P.Scalar) • P.B = e.privateKey • P.BBlinding with
  | some v =>
      simp only [myValidator, hfind, Option.some.injEq] at h
      obtain rfl := h
      exact Or.inl ⟨List.mem_of_find?_eq_some hfind, by simpa using List.find?_some hfind⟩
  | none =>
      simp only [myValidator, hfind] at h
      split at h
      next hgenesis =>
        obtain ⟨hempty, hkey⟩ := Bool.and_eq_true_iff.mp hgenesis
        obtain rfl := Option.some.inj h
        have hkey' : e.privateKey = P.genesisValidatorBlinding := of_decide_eq_true hkey
        refine Or.inr ⟨List.isEmpty_iff.mp hempty, hkey', ?_, rfl⟩
        rw [hkey']
        rfl
      next => cases h

/-- The node's key opens the stake it signs for. -/
theorem stakeKey_of_myValidator (h : myValidator e s = some validator) :
    stakeKey validator.commitment validator.value = ⟨e.privateKey • P.BBlinding⟩ := by
  rcases myValidator_cases h with ⟨-, hkey⟩ | ⟨-, hkey, hcommitment, hvalue⟩
  · rw [stakeKey, hkey]
  · rw [hcommitment, hvalue, hkey]
    simp [stakeKey, genesisDefault, Commitment.new]

/-- The chain takes the proposer for the validator it takes itself for. -/
theorem stakeValue_of_myValidator (hs : ChainState.DistinctStakes s.activeValidators)
    (h : myValidator e s = some validator) :
    s.stakeValue validator.commitment = some validator.value := by
  unfold ChainState.stakeValue
  rcases myValidator_cases h with ⟨hmem, -⟩ | ⟨hempty, -, hcommitment, hvalue⟩
  · rw [if_neg (by simpa using List.ne_nil_of_mem hmem)]
    obtain ⟨v, hv⟩ : ∃ v, s.activeValidators.find? (fun w => w.commitment == validator.commitment) =
        some v := by
      rw [← Option.isSome_iff_exists, List.find?_isSome]
      exact ⟨validator, hmem, beq_self_eq_true _⟩
    have hsame : v.commitment = validator.commitment := by
      simpa using List.find?_some hv
    have heq : v = validator :=
      List.inj_on_of_nodup_map hs (List.mem_of_find?_eq_some hv) hmem hsame
    rw [hv, heq]
    rfl
  · rw [hempty, hcommitment, hvalue, if_pos List.isEmpty_nil, if_pos rfl]

/-- The block carries a signature that the chain accepts. -/
theorem proposerSigned_assembleBlock (hs : ChainState.DistinctStakes s.activeValidators)
    (h : myValidator e s = some validator) (d : Drained P) :
    s.proposerSigned (assembleBlock e s d validator) = some () := by
  have hvalue : s.stakeValue (assembleBlock e s d validator).header.validatorCommitment =
      some validator.value := stakeValue_of_myValidator hs h
  have hverify : (assembleBlock e s d validator).header.validatorSignature.verify
      (assembleBlock e s d validator).header.signingHash.toList
      (stakeKey validator.commitment validator.value) = true := by
    rw [stakeKey_of_myValidator h]
    exact Signature.verify_sign _ _ _
  rw [ChainState.proposerSigned, hvalue]
  show Checked.ensure (_ || Signature.verify _ _ (stakeKey validator.commitment validator.value)) = _
  rw [hverify, Bool.or_true]
  rfl

/-- A block without operations commits to the registries of the state. -/
theorem rootsMatch_of_opFree {d : Drained P} (h : (assembleBlock e s d validator).OpFree) :
    ChainState.RootsMatch (assembleBlock e s d validator)
      ⟨s.nameRegistry, s.collectionRegistry, s.assetRegistry, s.collectionMintCounts, [],
        s.activeValidators⟩ := by
  obtain ⟨hnames, hcollections, hassets⟩ := roots_assembleBlock e s d validator
  refine ⟨?_, ?_, ?_⟩
  · rw [hnames, ChainState.namesAfter, h.transferOps, h.nameOps]
    rfl
  · rw [hcollections, ChainState.collectionsAfter, h.launchCollectionOps]
    rfl
  · rw [hassets, ChainState.assetsAfter, h.transferAssetOps, h.mintOps]
    rfl

theorem round_eq_some {b : Block P} {result : ApplyResult P}
    (h : (round e s m).2 = some (b, result)) :
    ∃ validator, myValidator e s = some validator ∧
      b = assembleBlock e s (drain m).1 validator ∧ result = (s.applyBlock b).2 := by
  unfold round at h
  split at h
  · cases h
  next validator hval =>
    split at h
    · cases h
    · obtain ⟨rfl, rfl⟩ := Prod.mk.inj (Option.some.inj h)
      exact ⟨validator, hval, rfl, rfl⟩

/-- The selected transactions fit the chain: together with the reward their fees do not overflow, and
what they spend more often than they create is an unspent coin that is not locked. -/
structure BodyFits (s : ChainState P) (m : Mempool P) : Prop where
  fees : feeTotal m.selectedTxs + (blockRewardAt (nextHeight s)).toNat < 2 ^ 64
  coins : ∀ c, (m.selectedTxs.flatMap created).count c < (m.selectedTxs.flatMap spent).count c →
    c ∈ s.utxos ∧ lockedAt c (nextHeight s) = false

/-- The body passes exactly when its coinbase does not overflow. -/
theorem mintCoinbase_valid_iff (hB : LargeOrder P)
    (hprove : ∀ value blinding,
      verifyRangeProof (e.prove value blinding) (Commitment.new value blinding) = true)
    (hm : m.Admitted) (hreward : blockRewardAt (nextHeight s) ≠ 0) :
    (mintCoinbase e s (aggregateAndCutThrough m.selectedTxs)).validateWithReward
        (blockRewardAt (nextHeight s)) = true ↔
      feeTotal m.selectedTxs + (blockRewardAt (nextHeight s)).toNat < 2 ^ 64 := by
  have hvalid : ∀ tx ∈ m.selectedTxs, tx.validate = true :=
    fun tx htx => hm.txs tx (mem_of_mem_selectedTxs htx)
  have hfees : feeTotal m.selectedTxs ≤ 50 * 2 ^ 64 := feeTotal_lt (List.length_take_le _ _)
  have hsmall := (blockRewardAt (nextHeight s)).toNat_lt
  have hcharged : (chargedFee (nextHeight s) m.selectedTxs).toNat = 0 := by
    rw [chargedFee, if_neg hreward]
    rfl
  have hmod := Nat.mod_lt (feeTotal m.selectedTxs + (blockRewardAt (nextHeight s)).toNat)
    (Nat.two_pow_pos 64)
  show (withCoinbase _ _ _ _ _ _).validateWithReward _ = true ↔ _
  rw [withCoinbase_valid_iff hvalid (hprove _ _), toNat_coinbaseValue, hcharged,
    hB.smul_inj (by omega) (by omega), Nat.add_zero]
  constructor
  · intro h
    omega
  · intro h
    rw [Nat.mod_eq_of_lt h]

/-- **The proposer's own block is applied exactly when the selected transactions fit the chain.** The
filters run on operations only: one pending transaction whose input is spent, unknown or locked takes
the whole block down. -/
theorem round_applied_iff (hB : LargeOrder P)
    (hprove : ∀ value blinding,
      verifyRangeProof (e.prove value blinding) (Commitment.new value blinding) = true)
    (hs : ChainState.DistinctStakes s.activeValidators)
    (hheight : s.currentHeight.toNat + 1 < 126_000_000)
    (serializedSize : Transaction P → Option UInt64) (calls : List (Mempool.PoolCall P))
    (hm : m = Mempool.run serializedSize calls) {b : Block P} {result : ApplyResult P}
    (hround : (round e s m).2 = some (b, result)) (hops : b.OpFree) :
    result.isApplied = true ↔ BodyFits s m := by
  have hadm : m.Admitted := hm ▸ Mempool.admitted_run serializedSize calls
  obtain ⟨validator, hval, rfl, rfl⟩ := round_eq_some hround
  set b := assembleBlock e s (drain m).1 validator with hb
  have hnext : (nextHeight s).toNat = s.currentHeight.toNat + 1 := by
    rw [nextHeight, UInt64.toNat_add, UInt64.toNat_one, Nat.mod_eq_of_lt (by omega)]
  have hheight' : b.height = nextHeight s := rfl
  have hpos : b.height ≠ 0 := by
    intro h0
    rw [← hheight', h0] at hnext
    simp at hnext
  have hreward : blockRewardAt (nextHeight s) ≠ 0 := by
    rw [ne_eq, blockRewardAt_eq_zero_iff]
    omega
  have hbreward : b.reward = blockRewardAt (nextHeight s) := by
    rw [Block.reward, if_neg hpos]
    rfl
  have hbody : b.body = mintCoinbase e s (aggregateAndCutThrough m.selectedTxs) := by
    rw [← drain_tx]
    rfl
  have hspent : b.body.spent = (aggregateAndCutThrough m.selectedTxs).spent := by
    rw [hbody]
    rfl
  have hlinear : s.isLinear b = true := isLinear_assembleBlock hnext _ _
  have hvalid := mintCoinbase_valid_iff (s := s) hB hprove hadm hreward
  rw [ChainState.isApplied_iff_of_isLinear hlinear, Option.isSome_iff_exists]
  simp only [ChainState.checkBlock_eq_some_iff, ChainState.checkOps_of_opFree hops]
  constructor
  -- accepted: the balance gives the fees, the checks of the inputs give the coins
  · rintro ⟨-, c, hchecked, -, -⟩
    have hbalance := hchecked.valid
    rw [hbody, hbreward] at hbalance
    have hunlocked := spendsLockedOutputEarly_eq_false_iff.mp hchecked.unlocked
    refine ⟨hvalid.mp hbalance, ?_⟩
    intro x hx
    rw [← CutThrough.mem_spent_iff, ← hspent] at hx
    exact ⟨(hchecked.inputs.resolve_left hpos) x hx, hunlocked x hx⟩
  -- conversely, the checks one by one
  · intro hfits
    have hbalance : b.body.validateWithReward b.reward = true := by
      rw [hbody, hbreward]
      exact hvalid.mpr hfits.fees
    have hcoins : ∀ x ∈ b.body.spent, x ∈ s.utxos ∧ lockedAt x b.height = false := by
      intro x hx
      rw [hspent, CutThrough.mem_spent_iff] at hx
      exact hfits.coins x hx
    refine ⟨hbalance, _, ⟨?_, proposerSigned_assembleBlock hs hval _, hbalance, rfl, ?_, ?_⟩, rfl,
      rootsMatch_of_opFree hops⟩
    · exact ChainState.connects_iff.mpr (Or.inl ⟨hnext, rfl⟩)
    · exact spendsLockedOutputEarly_eq_false_iff.mpr fun x hx => (hcoins x hx).2
    · exact Or.inr fun x hx => (hcoins x hx).1

end Applied

/-- A payment from the genesis output is mined by the round. -/
theorem round_mines_payment :
    ∃ b result, (round Devnet.env (ChainState.deliver [Devnet.genesis])
        (Mempool.run Devnet.serializedSize [.addTransaction
          (Devnet.payment (genesisTotalMinted - 1_000_000) 7 8 5)])).2 = some (b, result) ∧
      result.isApplied = true ∧
      BodyFits (ChainState.deliver [Devnet.genesis])
        (Mempool.run Devnet.serializedSize [.addTransaction
          (Devnet.payment (genesisTotalMinted - 1_000_000) 7 8 5)]) := by
  have hrun : ∃ r ∈ (round Devnet.env (ChainState.deliver [Devnet.genesis])
        (Mempool.run Devnet.serializedSize [.addTransaction
          (Devnet.payment (genesisTotalMinted - 1_000_000) 7 8 5)])).2,
      r.1.OpFree ∧ r.2.isApplied = true := by
    decide +kernel
  obtain ⟨⟨b, result⟩, hround, hops, happlied⟩ := hrun
  refine ⟨b, result, hround, happlied, ?_⟩
  exact (round_applied_iff (P := Devnet.crypto) Devnet.largeOrder Devnet.verifyRangeProof_env
    (ChainState.distinctStakes_deliver _) (by decide +kernel) Devnet.serializedSize _ rfl hround
    hops).mp happlied

/-- A pending payment from a coin that does not exist has the block rejected. -/
theorem round_rejected :
    ∃ r ∈ (round Devnet.env (ChainState.deliver [Devnet.genesis])
        (Mempool.run Devnet.serializedSize [.addTransaction (Devnet.payment 1000 11 12 5)])).2,
      r.1.OpFree ∧ r.2.isApplied = false := by
  decide +kernel

end Proposer

end Haze
