import Haze.Mempool.Selection
import Haze.P2p.Blocks
import Haze.P2p.Freshness
import Haze.P2p.Ops
import Haze.Proposer.Order

/-!
# Turns, and that they lead somewhere (`core/src/proposer.rs`)

The order of priority gives every validator a rank, and every four seconds that the height does not move
let one more rank propose. Whatever the stakes add up to, the order has every validator once, so after
four seconds for each validator everyone's turn has come (`fallback_schedule`).

A turn can be wasted: one bad transaction takes the whole block down. But a round also takes what it has
chosen out of the mempool, whatever becomes of the block, the queues are bounded, and what is submitted
meanwhile is worth one more round at most for each submission. A validator that keeps trying therefore gets
a block through once its late passes outnumber the submissions by more than a hundred
(`proposer_not_stuck`). Nothing better can be said: one bad payment before every pass wastes them all.
-/

namespace Haze

variable {P : Crypto}

/-! ## The order, whatever the stakes add up to

With stakes that wrap or are all zero the draw may not be proportional, but it still takes one validator
after another until none is left. -/

namespace ChainState

variable {pool : List (Validator P)}

theorem drawIndex_lt {target : UInt64} {i : ℕ} (h : drawIndex pool target = some i) :
    i < pool.length := by
  induction pool generalizing target i with
  | nil => cases h
  | cons v pool ih =>
      rw [drawIndex] at h
      split at h
      · cases h
        exact Nat.succ_pos _
      · obtain ⟨j, hj, rfl⟩ := Option.map_eq_some_iff.mp h
        exact Nat.succ_lt_succ (ih hj)

/-- Every draw takes someone, and nobody twice. -/
theorem drawOrder_perm (height : UInt64) (prevHash : Bytes32) {n : ℕ} (round : ℕ)
    (hlength : pool.length = n) :
    (drawOrder height prevHash n round pool).Perm (pool.map Validator.commitment) := by
  induction n generalizing pool round with
  | zero =>
      obtain rfl := List.length_eq_zero_iff.mp hlength
      exact .refl _
  | succ n ih =>
      rw [drawOrder]
      generalize hindex : (if (pool.map Validator.value).sum = 0 then 0
        else (drawIndex pool (drawSeed P height prevHash round % (pool.map Validator.value).sum)).getD 0)
        = i
      have hi : i < pool.length := by
        have hpos : 0 < pool.length := hlength ▸ Nat.succ_pos n
        rw [← hindex]
        split
        · exact hpos
        · cases hdraw : drawIndex pool
            (drawSeed P height prevHash round % (pool.map Validator.value).sum) with
          | none => exact hpos
          | some j => exact drawIndex_lt hdraw
      rw [List.getElem?_eq_getElem hi]
      have hlength' : (pool.eraseIdx i).length = n := by
        rw [List.length_eraseIdx_of_lt hi]
        omega
      have hrest := ih (round + 1) hlength'
      refine (hrest.cons _).trans ?_
      rw [← List.map_cons (f := Validator.commitment)]
      exact (List.getElem_cons_eraseIdx_perm hi).map _

theorem proposerPriorityOrder_perm {s : ChainState P} (hne : s.activeValidators ≠ [])
    (height : UInt64) (prevHash : Bytes32) :
    (s.proposerPriorityOrder height prevHash).Perm (s.activeValidators.map Validator.commitment) := by
  rw [proposerPriorityOrder, if_neg (by simpa using hne)]
  exact drawOrder_perm height prevHash 0 rfl

end ChainState

namespace Proposer

variable {e : Env P} {s : ChainState P} {m : Mempool P} {validator : Validator P}

/-! ## The schedule

A rank is late by one timeout for every validator before it. -/

/-- The order of the next height. -/
def nextOrder (s : ChainState P) : List (Commitment P) :=
  s.proposerPriorityOrder (nextHeight s) s.lastBlockHash

theorem nextOrder_perm (hne : s.activeValidators ≠ []) :
    (nextOrder s).Perm (s.activeValidators.map Validator.commitment) :=
  ChainState.proposerPriorityOrder_perm hne _ _

/-- A validator of rank `k` proposes once the height has not moved for `k` timeouts. -/
theorem eligible_iff (hmem : validator.commitment ∈ nextOrder s) :
    eligible e s validator = true ↔
      fallbackRoundTimeout * (nextOrder s).idxOf validator.commitment ≤ e.stalledFor := by
  have hrank : (nextOrder s).findIdx? (fun commitment => commitment == validator.commitment) =
      some ((nextOrder s).idxOf validator.commitment) :=
    List.findIdx?_eq_some_iff_findIdx_eq.mpr ⟨List.idxOf_lt_length_of_mem hmem, rfl⟩
  unfold eligible
  rw [show s.proposerPriorityOrder (nextHeight s) s.lastBlockHash = nextOrder s from rfl, hrank]
  split
  next hzero =>
    rw [Option.some.inj hzero]
    exact iff_of_true rfl (Nat.zero_le _)
  next hsome =>
    rw [Option.some.inj hsome]
    exact decide_eq_true_iff
  next hnone => cases hnone

theorem mem_nextOrder (hmem : validator ∈ s.activeValidators) : validator.commitment ∈ nextOrder s :=
  (nextOrder_perm (List.ne_nil_of_mem hmem)).mem_iff.mpr (List.mem_map_of_mem hmem)

/-- Those whose turn has come are the first ranks of the order. -/
theorem eligible_iff_mem_take (hmem : validator ∈ s.activeValidators) :
    eligible e s validator = true ↔
      validator.commitment ∈ (nextOrder s).take (e.stalledFor / fallbackRoundTimeout + 1) := by
  rw [eligible_iff (mem_nextOrder hmem), List.mem_take_iff_idxOf_lt (mem_nextOrder hmem),
    Nat.lt_succ_iff, Nat.le_div_iff_mul_le (by decide), Nat.mul_comm]

theorem nodup_nextOrder (hs : ChainState.DistinctStakes s.activeValidators)
    (hne : s.activeValidators ≠ []) : (nextOrder s).Nodup :=
  (nextOrder_perm hne).nodup_iff.mpr hs

theorem eligible_perm (hs : ChainState.DistinctStakes s.activeValidators)
    (hne : s.activeValidators ≠ []) :
    ((s.activeValidators.filter (eligible e s)).map Validator.commitment).Perm
      ((nextOrder s).take (e.stalledFor / fallbackRoundTimeout + 1)) := by
  have htake : ((nextOrder s).take (e.stalledFor / fallbackRoundTimeout + 1)).Nodup :=
    (nodup_nextOrder hs hne).sublist (List.take_sublist _ _)
  have hfilter : ((s.activeValidators.filter (eligible e s)).map Validator.commitment).Nodup :=
    List.Nodup.sublist (List.filter_sublist.map _) hs
  refine (List.perm_ext_iff_of_nodup hfilter htake).mpr ?_
  intro c
  simp only [List.mem_map, List.mem_filter]
  constructor
  · rintro ⟨validator, ⟨hmem, heligible⟩, rfl⟩
    exact (eligible_iff_mem_take hmem).mp heligible
  · intro hc
    have horder := (nextOrder_perm hne).mem_iff.mp (List.mem_of_mem_take hc)
    obtain ⟨validator, hmem, rfl⟩ := List.mem_map.mp horder
    exact ⟨validator, ⟨hmem, (eligible_iff_mem_take hmem).mpr hc⟩, rfl⟩

/-- **The schedule of fallbacks.** Whatever the stakes are and add up to, the order of the next height has
every validator once; after every four seconds without a block one more of them may propose, those who
may are the first of the order, and nobody is left out in the end. -/
theorem fallback_schedule (bs : List (Block P)) (hs : s = ChainState.deliver bs)
    (hne : s.activeValidators ≠ []) (e : Env P) :
    (nextOrder s).Perm (s.activeValidators.map Validator.commitment) ∧
      ((s.activeValidators.filter (eligible e s)).map Validator.commitment).Perm
        ((nextOrder s).take (e.stalledFor / fallbackRoundTimeout + 1)) ∧
      (s.activeValidators.filter (eligible e s)).length =
        min (e.stalledFor / fallbackRoundTimeout + 1) s.activeValidators.length := by
  have hdistinct : ChainState.DistinctStakes s.activeValidators :=
    hs ▸ ChainState.distinctStakes_deliver bs
  have hfirst := eligible_perm (e := e) hdistinct hne
  refine ⟨nextOrder_perm hne, hfirst, ?_⟩
  have hlength := hfirst.length_eq
  rw [List.length_map, List.length_take, (nextOrder_perm hne).length_eq, List.length_map] at hlength
  exact hlength

/-! ## A round on an empty mempool

With nothing pending the block is a coinbase and nothing else, and that is always accepted when its range
proof verifies. So a round on an empty mempool is never wasted, and the rounds before it empty the mempool.
-/

/-- How many blocks take everything out of the queues, at most. -/
structure Backlog (n : ℕ) (m : Mempool P) : Prop where
  txs : m.pendingTxs.length ≤ maxTxsPerBlock * n
  nameOps : m.pendingNameOps.length ≤ maxNameOpsPerBlock * n
  transferOps : m.pendingTransferOps.length ≤ maxTransferOpsPerBlock * n
  mintOps : m.pendingMintOps.length ≤ maxMintOpsPerBlock * n
  transferAssetOps : m.pendingTransferAssetOps.length ≤ maxTransferAssetOpsPerBlock * n
  launchOps : m.pendingLaunchCollectionOps.length ≤ maxLaunchOpsPerBlock * n
  validatorOps : m.pendingValidatorOps.length ≤ maxValidatorOpsPerBlock * n

/-- The caps of the queues are a hundred blocks' worth. -/
theorem Backlog.of_orderly (h : m.Orderly) : Backlog 100 m :=
  ⟨h.txs, h.nameOps.within, h.transferOps.within, h.mintOps.within, h.transferAssetOps.within,
    h.launchOps.within, h.validatorOps.within⟩

theorem length_drop_byFee {α : Type} {fee : α → UInt64} {queue : List α} {cap n : ℕ}
    (h : queue.length ≤ cap * (n + 1)) :
    ((Queue.byFee fee queue).drop cap).length ≤ cap * n := by
  rw [List.length_drop, (Queue.byFee_perm fee queue).length_eq]
  rw [Nat.mul_succ] at h
  omega

theorem length_drop_cap {α : Type} {queue : List α} {cap n : ℕ}
    (h : queue.length ≤ cap * (n + 1)) : (queue.drop cap).length ≤ cap * n := by
  rw [List.length_drop]
  rw [Nat.mul_succ] at h
  omega

/-- A round takes one block's worth. -/
theorem Backlog.drain {n : ℕ} (h : Backlog (n + 1) m) : Backlog n (drain m).2 := by
  rw [drain_eq]
  exact ⟨length_drop_byFee h.txs, length_drop_byFee h.nameOps, length_drop_cap h.transferOps,
    length_drop_byFee h.mintOps, length_drop_cap h.transferAssetOps, length_drop_cap h.launchOps,
    length_drop_cap h.validatorOps⟩

theorem Backlog.mono {n k : ℕ} (h : Backlog n m) (hnk : n ≤ k) : Backlog k m :=
  ⟨h.txs.trans (Nat.mul_le_mul_left _ hnk), h.nameOps.trans (Nat.mul_le_mul_left _ hnk),
    h.transferOps.trans (Nat.mul_le_mul_left _ hnk), h.mintOps.trans (Nat.mul_le_mul_left _ hnk),
    h.transferAssetOps.trans (Nat.mul_le_mul_left _ hnk),
    h.launchOps.trans (Nat.mul_le_mul_left _ hnk), h.validatorOps.trans (Nat.mul_le_mul_left _ hnk)⟩

theorem length_concat_le {α : Type} {queue : List α} {cap n : ℕ} (hcap : 0 < cap)
    (h : queue.length ≤ cap * n) (x : α) : (queue ++ [x]).length ≤ cap * (n + 1) := by
  rw [List.length_append, List.length_singleton, Nat.mul_succ]
  omega

/-- An operation that is queued is worth one round at most. -/
theorem Backlog.handleOp {n : ℕ} (h : Backlog n m) (op : OpMessage P) :
    Backlog (n + 1) (handleOp m op).1 := by
  have hmore := h.mono (Nat.le_succ n)
  rcases handleOp_cases m op with ⟨hadd, -⟩ | ⟨-, hsame⟩
  · generalize (Haze.handleOp m op).1 = m' at hadd ⊢
    -- the queue of the operation is longer by one, and the others are as they were
    cases op
    all_goals
      obtain ⟨queue, hqueue, rfl⟩ := Option.map_eq_some_iff.mp hadd
      obtain ⟨-, rfl⟩ := Queue.add_eq_some.mp hqueue
    case newNameOp op => exact { hmore with nameOps := length_concat_le (by decide) h.nameOps op }
    case newTransferOp op =>
      exact { hmore with transferOps := length_concat_le (by decide) h.transferOps op }
    case newMintOp op => exact { hmore with mintOps := length_concat_le (by decide) h.mintOps op }
    case newTransferAssetOp op =>
      exact { hmore with transferAssetOps := length_concat_le (by decide) h.transferAssetOps op }
    case newLaunchCollectionOp op =>
      exact { hmore with launchOps := length_concat_le (by decide) h.launchOps op }
    case newValidatorOp op =>
      exact { hmore with validatorOps := length_concat_le (by decide) h.validatorOps op }
  · rw [hsame]
    exact hmore

theorem Backlog.addTransaction {n : ℕ} (h : Backlog n m)
    (serializedSize : Transaction P → Option UInt64) (tx : Transaction P) :
    Backlog (n + 1) ((m.addTransaction serializedSize tx).getD m) := by
  have hmore := h.mono (Nat.le_succ n)
  cases hadd : m.addTransaction serializedSize tx with
  | none => exact hmore
  | some m' =>
      obtain ⟨-, rfl⟩ := Mempool.addTransaction_eq_some.mp hadd
      exact { hmore with txs := length_concat_le (by decide) h.txs tx }

theorem Backlog.eq_new (h : Backlog 0 m) : m = Mempool.new := by
  obtain ⟨htxs, hnames, htransfers, hmints, hassets, hlaunches, hvalidators⟩ := h
  simp only [Nat.mul_zero, Nat.le_zero, List.length_eq_zero_iff] at *
  cases m
  simp_all [Mempool.new]

/-- With nothing pending the block has no operations. -/
theorem opFree_of_new (e : Env P) (s : ChainState P) (validator : Validator P) :
    (assembleBlock e s (drain Mempool.new).1 validator).OpFree :=
  ⟨rfl, rfl, rfl, rfl, rfl, rfl⟩

/-- An empty block balances at every height: it pays the reward, and there are no fees. -/
theorem mintCoinbase_new_valid
    (hprove : ∀ value blinding,
      verifyRangeProof (e.prove value blinding) (Commitment.new value blinding) = true) :
    (mintCoinbase e s (aggregateAndCutThrough [])).validateWithReward
      (blockRewardAt (nextHeight s)) = true := by
  refine (withCoinbase_valid_iff (fun tx htx => absurd htx List.not_mem_nil) (hprove _ _)).mpr ?_
  have hcharged : (chargedFee (P := P) (nextHeight s) []).toNat = 0 := by
    unfold chargedFee
    split
    · rw [toNat_totalFee_aggregate]
      rfl
    · rfl
  have hreward := (blockRewardAt (nextHeight s)).toNat_lt
  rw [toNat_coinbaseValue, hcharged, Nat.add_zero, Nat.mod_eq_of_lt]
  rw [feeTotal, List.map_nil, List.sum_nil]
  omega

/-- What a node needs for its own block to pass: stakes that are told apart, and room above the tip. -/
structure Seated (s : ChainState P) : Prop where
  distinct : ChainState.DistinctStakes s.activeValidators
  height : s.currentHeight.toNat + 1 < 2 ^ 64

/-- The chain takes an empty block of its own proposer. -/
theorem applied_of_new (hs : Seated s)
    (hprove : ∀ value blinding,
      verifyRangeProof (e.prove value blinding) (Commitment.new value blinding) = true)
    (hval : myValidator e s = some validator) :
    (s.applyBlock (assembleBlock e s (drain Mempool.new).1 validator)).2.isApplied = true := by
  set b := assembleBlock e s (drain Mempool.new).1 validator with hb
  have hnext : (nextHeight s).toNat = s.currentHeight.toNat + 1 := by
    rw [nextHeight, UInt64.toNat_add, UInt64.toNat_one, Nat.mod_eq_of_lt hs.height]
  have hops : b.OpFree := opFree_of_new e s validator
  have hpos : b.height ≠ 0 := by
    intro hzero
    have hnat := congrArg UInt64.toNat hzero
    rw [show b.height = nextHeight s from rfl, hnext, UInt64.toNat_zero] at hnat
    omega
  have hbody : b.body = mintCoinbase e s (aggregateAndCutThrough []) := by
    show mintCoinbase e s (drain Mempool.new).1.tx = _
    rw [drain_tx]
    rfl
  have hspent : b.body.spent = [] := by
    rw [hbody]
    rfl
  have hbalance : b.body.validateWithReward b.reward = true := by
    rw [hbody, Block.reward, if_neg hpos]
    exact mintCoinbase_new_valid hprove
  rw [ChainState.isApplied_iff_of_isLinear (isLinear_assembleBlock hnext _ _),
    Option.isSome_iff_exists]
  refine ⟨hbalance, _, ChainState.checkBlock_eq_some_iff.mpr
    ⟨⟨?_, proposerSigned_assembleBlock hs.distinct hval _, hbalance, rfl, ?_, ?_⟩,
      ChainState.checkOps_of_opFree hops, rootsMatch_of_opFree hops⟩⟩
  · exact ChainState.connects_iff.mpr (Or.inl ⟨hnext, rfl⟩)
  · refine spendsLockedOutputEarly_eq_false_iff.mpr fun x hx => ?_
    rw [hspent] at hx
    cases hx
  · refine Or.inr fun x hx => ?_
    rw [hspent] at hx
    cases hx

/-! ## Passes of the loop

A pass is late when the wait for the height has lasted long enough for every rank. The induction counts late
passes against submissions: a pass takes a block's worth from every queue, a submission adds one item to one
queue. -/

/-- A block that is not taken is at most stored. -/
theorem applyBlock_of_not_applied {b : Block P} (h : (s.applyBlock b).2.isApplied = false) :
    (s.applyBlock b).1 = s ∨ (s.applyBlock b).1 = s.storeBlock b := by
  have houtcome := ChainState.outcome_applyBlock s b
  generalize s.applyBlock b = r at houtcome h ⊢
  cases houtcome with
  | invalid _ => exact .inl rfl
  | refused _ => exact .inr rfl
  | linear _ _ => cases h
  | reorg _ _ _ _ _ => cases h

/-- A node with the proposer's timer: `stalled_since`, the pending height and when the wait for it began,
in milliseconds. -/
structure Desk (P : Crypto) where
  chain : ChainState P
  mempool : Mempool P
  stalledSince : Option (UInt64 × ℕ)

/-- What happens at the desk. -/
inductive Turn (P : Crypto) where
  /-- A pass of the loop, at a time of the monotonic clock. -/
  | pass (now : ℕ) (e : Env P)
  /-- A block of a peer. -/
  | newBlock (b : Block P)
  /-- An operation of a client or of a peer. -/
  | op (op : OpMessage P)
  /-- A transaction of a client. -/
  | transaction (tx : Transaction P)

namespace Desk

variable (serializedSize : Transaction P → Option UInt64) (d : Desk P)

/-- When the wait for the pending height began; now, if the timer stands at another height. -/
def since (now : ℕ) : ℕ :=
  match d.stalledSince with
  | some (height, since) => if height = nextHeight d.chain then since else now
  | none => now

/-- What a pass reads off the timer. -/
def clocked (now : ℕ) (e : Env P) : Env P :=
  { e with stalledFor := now - d.since now }

def step : Turn P → Desk P
  | .pass now e =>
      match myValidator e d.chain with
      | none => d
      | some _ =>
          let ((chain, mempool), _) := round (d.clocked now e) d.chain d.mempool
          ⟨chain, mempool, some (nextHeight d.chain, d.since now)⟩
  | .newBlock b =>
      let (chain, result) := d.chain.applyBlock b
      ⟨chain, if result.isApplied then d.mempool.clearAfter b else d.mempool, d.stalledSince⟩
  | .op op => { d with mempool := (handleOp d.mempool op).1 }
  | .transaction tx => { d with mempool := (d.mempool.addTransaction serializedSize tx).getD d.mempool }

def run (d : Desk P) (turns : List (Turn P)) : Desk P :=
  turns.foldl (step serializedSize) d

end Desk

/-- The pass is late enough for the last rank, if the wait began at `start`. -/
def Turn.isLate (start : ℕ) (validators : ℕ) : Turn P → Bool
  | .pass now _ => start + fallbackRoundTimeout * (validators - 1) ≤ now
  | _ => false

/-- Something new for the mempool. -/
def Turn.isSubmission : Turn P → Bool
  | .op _ | .transaction _ => true
  | _ => false

/-- A validator that keeps trying: its key opens a stake of the chain, its range proofs verify, and it makes
no pass before `start`. The blocks that come in are above genesis, and what is submitted may be anything. -/
def Turn.Trying (s : ChainState P) (start : ℕ) : Turn P → Prop
  | .pass now e => (myValidator e s).isSome = true ∧ start ≤ now ∧ ∀ value blinding,
      verifyRangeProof (e.prove value blinding) (Commitment.new value blinding) = true
  | .newBlock b => b.height ≠ 0
  | .op _ | .transaction _ => True

/-- The height is still that of `s`, and so are the tip and the validators; only stored blocks differ. -/
structure Unmoved (s s' : ChainState P) : Prop where
  height : s'.currentHeight = s.currentHeight
  tip : s'.lastBlockHash = s.lastBlockHash
  validators : s'.activeValidators = s.activeValidators

/-- The timer stands at the pending height, since `start` or before. -/
def Desk.Waits (d : Desk P) (start : ℕ) : Prop :=
  ∃ since ≤ start, d.stalledSince = some (nextHeight d.chain, since)

section Progress

variable {serializedSize : Transaction P → Option UInt64} {d : Desk P} {start n : ℕ}

theorem Unmoved.refl (s : ChainState P) : Unmoved s s :=
  ⟨rfl, rfl, rfl⟩

theorem Unmoved.seated {s s' : ChainState P} (h : Unmoved s s') (hs : Seated s) : Seated s' :=
  ⟨h.validators ▸ hs.distinct, h.height ▸ hs.height⟩

theorem Unmoved.nextHeight_eq {s s' : ChainState P} (h : Unmoved s s') : nextHeight s' = nextHeight s := by
  rw [nextHeight, nextHeight, h.height]

theorem Unmoved.myValidator_eq {s s' : ChainState P} (h : Unmoved s s') (e : Env P) :
    myValidator e s' = myValidator e s := by
  unfold myValidator
  rw [h.validators]

/-- A block either moves the height, or leaves everything that a turn depends on. -/
theorem Unmoved.applyBlock {s₀ : ChainState P} (h : Unmoved s₀ s) {b : Block P} :
    ((s.applyBlock b).2.isApplied = true ∧ b.height ≠ 0 →
        s₀.currentHeight < (s.applyBlock b).1.currentHeight) ∧
      ((s.applyBlock b).2.isApplied = false → Unmoved s₀ (s.applyBlock b).1) := by
  constructor
  · rintro ⟨happlied, hpos⟩
    rw [ChainState.currentHeight_applyBlock, if_pos happlied, ← h.height]
    exact ChainState.currentHeight_lt_of_isApplied hpos happlied
  · intro hrefused
    rcases applyBlock_of_not_applied hrefused with heq | heq
    · rw [heq]
      exact h
    · rw [heq]
      exact ⟨h.height, h.tip, h.validators⟩

/-- With the timer running, a late pass has waited long enough for every rank. -/
theorem eligible_of_late (hval : myValidator e s = some validator)
    (hstalled : fallbackRoundTimeout * (s.activeValidators.length - 1) ≤ e.stalledFor) :
    eligible e s validator = true := by
  have hmem : validator.commitment ∈ nextOrder s ∧
      (nextOrder s).length ≤ s.activeValidators.length - 1 + 1 := by
    rcases myValidator_cases hval with ⟨hactive, -⟩ | ⟨hempty, -, hcommitment, -⟩
    · have hne : s.activeValidators ≠ [] := List.ne_nil_of_mem hactive
      refine ⟨mem_nextOrder hactive, ?_⟩
      rw [(nextOrder_perm hne).length_eq, List.length_map]
      have hpos := List.length_pos_of_ne_nil hne
      omega
    · have horder : nextOrder s = [genesisDefault P] := by
        rw [nextOrder, ChainState.proposerPriorityOrder, hempty]
        rfl
      rw [horder, hcommitment]
      exact ⟨List.mem_singleton_self _, Nat.le_add_left 1 _⟩
  obtain ⟨hmem, hlength⟩ := hmem
  refine (eligible_iff hmem).mpr (le_trans (Nat.mul_le_mul_left _ ?_) hstalled)
  have hidx := List.idxOf_lt_length_of_mem hmem
  omega

/-- The height has not moved since `s`, and `n` rounds would empty the mempool. -/
structure Stuck (s : ChainState P) (start n : ℕ) (d : Desk P) : Prop where
  unmoved : Unmoved s d.chain
  waits : d.Waits start
  backlog : Backlog n d.mempool

theorem Desk.Waits.since_le (h : d.Waits start) (now : ℕ) : d.since now ≤ start := by
  obtain ⟨since, hle, htimer⟩ := h
  rw [Desk.since, htimer]
  show (if nextHeight d.chain = nextHeight d.chain then since else now) ≤ start
  rw [if_pos rfl]
  exact hle

/-- A pass moves the height, or takes one round's worth out of the mempool if its turn has come; on an
empty mempool it moves the height. -/
theorem step_pass {now : ℕ} (hs : Seated s) (hunmoved : Unmoved s d.chain)
    (hsince : d.since now ≤ start) (hbacklog : Backlog n d.mempool)
    (htry : Turn.Trying s start (.pass now e)) :
    s.currentHeight < (d.step serializedSize (.pass now e)).chain.currentHeight ∨
      ∃ k, Stuck s start k (d.step serializedSize (.pass now e)) ∧
        k + (if (Turn.pass now e).isLate start s.activeValidators.length then 1 else 0) ≤ n := by
  obtain ⟨hseat, hnow, hprove⟩ := htry
  rw [← hunmoved.myValidator_eq] at hseat
  obtain ⟨validator, hval⟩ := Option.isSome_iff_exists.mp hseat
  have hval' : myValidator (d.clocked now e) d.chain = some validator := hval
  have hstep : d.step serializedSize (.pass now e) =
      ⟨(round (d.clocked now e) d.chain d.mempool).1.1, (round (d.clocked now e) d.chain d.mempool).1.2,
        some (nextHeight d.chain, d.since now)⟩ := by
    unfold Desk.step
    simp only [hval]
  rw [hstep]
  cases heligible : eligible (d.clocked now e) d.chain validator with
  | false =>
      have hround : round (d.clocked now e) d.chain d.mempool = ((d.chain, d.mempool), none) := by
        simp [round, hval', heligible]
      have hlate : (Turn.pass now e).isLate start s.activeValidators.length = false := by
        refine Bool.eq_false_of_not_eq_true fun hlate => ?_
        have hle : start + fallbackRoundTimeout * (s.activeValidators.length - 1) ≤ now :=
          of_decide_eq_true hlate
        have htrue := eligible_of_late (e := d.clocked now e) hval' (by
          show _ ≤ now - d.since now
          rw [hunmoved.validators]
          omega)
        rw [heligible] at htrue
        cases htrue
      rw [hround, hlate]
      exact .inr ⟨n, ⟨hunmoved, ⟨_, hsince, rfl⟩, hbacklog⟩, Nat.le_refl n⟩
  | true =>
      have hround : round (d.clocked now e) d.chain d.mempool =
          (((d.chain.applyBlock (assembleBlock (d.clocked now e) d.chain (drain d.mempool).1 validator)).1,
            (drain d.mempool).2),
            some (assembleBlock (d.clocked now e) d.chain (drain d.mempool).1 validator,
              (d.chain.applyBlock
                (assembleBlock (d.clocked now e) d.chain (drain d.mempool).1 validator)).2)) := by
        simp [round, hval', heligible]
      rw [hround]
      obtain ⟨happlies, hrefuses⟩ := hunmoved.applyBlock
        (b := assembleBlock (d.clocked now e) d.chain (drain d.mempool).1 validator)
      cases happlied : (d.chain.applyBlock
        (assembleBlock (d.clocked now e) d.chain (drain d.mempool).1 validator)).2.isApplied with
      | true => exact .inl (happlies ⟨happlied, height_assembleBlock_ne_zero happlied⟩)
      | false =>
          cases n with
          | zero =>
              -- with nothing left to drain the block would have been taken
              have hnew := applied_of_new (hunmoved.seated hs) (e := d.clocked now e) hprove hval'
              rw [← hbacklog.eq_new, happlied] at hnew
              cases hnew
          | succ n =>
              have hunmoved' := hrefuses happlied
              refine .inr ⟨n, ⟨hunmoved', ⟨_, hsince, ?_⟩, hbacklog.drain⟩, ?_⟩
              · rw [hunmoved'.nextHeight_eq, ← hunmoved.nextHeight_eq]
              · split <;> omega

theorem step_newBlock {b : Block P} (hstuck : Stuck s start n d) (hpos : b.height ≠ 0) :
    s.currentHeight < (d.step serializedSize (.newBlock b)).chain.currentHeight ∨
      Stuck s start n (d.step serializedSize (.newBlock b)) := by
  obtain ⟨hunmoved, hwaits, hbacklog⟩ := hstuck
  obtain ⟨happlies, hrefuses⟩ := hunmoved.applyBlock (b := b)
  cases happlied : (d.chain.applyBlock b).2.isApplied with
  | true => exact .inl (happlies ⟨happlied, hpos⟩)
  | false =>
      have hunmoved' := hrefuses happlied
      obtain ⟨since, hle, htimer⟩ := hwaits
      refine .inr ⟨hunmoved', ⟨since, hle, ?_⟩, ?_⟩
      · show d.stalledSince = some (nextHeight (d.chain.applyBlock b).1, since)
        rw [htimer, hunmoved'.nextHeight_eq, ← hunmoved.nextHeight_eq]
      · show Backlog n (if (d.chain.applyBlock b).2.isApplied then _ else d.mempool)
        rw [happlied]
        exact hbacklog

/-- What is submitted leaves chain and timer alone, and adds one round's worth to the backlog at most. -/
theorem step_op (hstuck : Stuck s start n d) (op : OpMessage P) :
    Stuck s start (n + 1) (d.step serializedSize (.op op)) :=
  ⟨hstuck.unmoved, hstuck.waits, hstuck.backlog.handleOp op⟩

theorem step_transaction (hstuck : Stuck s start n d) (tx : Transaction P) :
    Stuck s start (n + 1) (d.step serializedSize (.transaction tx)) :=
  ⟨hstuck.unmoved, hstuck.waits, hstuck.backlog.addTransaction serializedSize tx⟩

/-- No turn takes the height down. -/
theorem Desk.currentHeight_le_step (d : Desk P) (t : Turn P) :
    d.chain.currentHeight ≤ (d.step serializedSize t).chain.currentHeight := by
  cases t with
  | pass now e =>
      simp only [Desk.step]
      split
      · exact UInt64.le_refl _
      · rcases round_cases (d.clocked now e) d.chain d.mempool with hidle | ⟨_, -, -, hround⟩
        · rw [hidle]
          exact UInt64.le_refl _
        · rw [hround]
          exact d.chain.currentHeight_le_applyBlock _
  | newBlock b => exact d.chain.currentHeight_le_applyBlock b
  | op _ => exact UInt64.le_refl _
  | transaction _ => exact UInt64.le_refl _

theorem Desk.currentHeight_le_run (d : Desk P) (turns : List (Turn P)) :
    d.chain.currentHeight ≤ (d.run serializedSize turns).chain.currentHeight := by
  induction turns generalizing d with
  | nil => exact UInt64.le_refl _
  | cons t turns ih => exact UInt64.le_trans (d.currentHeight_le_step t) (ih (d.step serializedSize t))

/-- While it is stuck, every late pass takes a round's worth of the backlog, and nothing but a submission
adds to it. -/
theorem Stuck.run (hs : Seated s) (hstuck : Stuck s start n d) {turns : List (Turn P)}
    (htry : ∀ t ∈ turns, t.Trying s start)
    (hlate : n + turns.countP Turn.isSubmission <
      turns.countP (Turn.isLate start s.activeValidators.length)) :
    s.currentHeight < (d.run serializedSize turns).chain.currentHeight := by
  induction turns generalizing d n with
  | nil => exact absurd hlate (Nat.not_lt_zero _)
  | cons t turns ih =>
      obtain ⟨ht, hturns⟩ := List.forall_mem_cons.mp htry
      have hstep : s.currentHeight < (d.step serializedSize t).chain.currentHeight ∨
          ∃ k, Stuck s start k (d.step serializedSize t) ∧
            k + (if t.isLate start s.activeValidators.length then 1 else 0) ≤
              n + (if t.isSubmission then 1 else 0) := by
        cases t with
        | pass now e =>
            exact step_pass hs hstuck.unmoved (hstuck.waits.since_le now) hstuck.backlog ht
        | newBlock b =>
            rcases step_newBlock hstuck ht with hmoved | hstuck'
            · exact .inl hmoved
            · exact .inr ⟨n, hstuck', Nat.le_refl n⟩
        | op op => exact .inr ⟨n + 1, step_op hstuck op, Nat.le_refl (n + 1)⟩
        | transaction tx => exact .inr ⟨n + 1, step_transaction hstuck tx, Nat.le_refl (n + 1)⟩
      rcases hstep with hmoved | ⟨k, hstuck', hk⟩
      · exact UInt64.lt_of_lt_of_le hmoved ((d.step serializedSize t).currentHeight_le_run turns)
      · refine ih hstuck' hturns ?_
        rw [List.countP_cons, List.countP_cons] at hlate
        omega

/-- **A validator that keeps trying is not stuck.** From any reachable chain and mempool, let a validator
make passes while blocks of any kind come in, and operations and transactions of any kind are submitted.
Once the height has had time to fall to the last rank, a hundred wasted turns and one for each submission are
the most there can be: with one more the height has moved, whatever was pending. -/
theorem proposer_not_stuck (bs : List (Block P)) (calls : List (Mempool.PoolCall P))
    (hchain : d.chain = ChainState.deliver bs)
    (hmempool : d.mempool = Mempool.run serializedSize calls)
    (hroom : d.chain.currentHeight.toNat + 1 < 2 ^ 64)
    (hclock : ∀ height since, d.stalledSince = some (height, since) → since ≤ start)
    {turns : List (Turn P)}
    (htry : ∀ t ∈ .pass start e :: turns, Turn.Trying d.chain start t)
    (hlate : 100 + turns.countP Turn.isSubmission <
      turns.countP (Turn.isLate start d.chain.activeValidators.length)) :
    d.chain.currentHeight < (d.run serializedSize (.pass start e :: turns)).chain.currentHeight := by
  have hs : Seated d.chain := ⟨hchain ▸ ChainState.distinctStakes_deliver bs, hroom⟩
  have hbacklog : Backlog 100 d.mempool :=
    .of_orderly (hmempool ▸ Mempool.orderly_run serializedSize calls)
  have hsince : d.since start ≤ start := by
    unfold Desk.since
    split
    next height since htimer =>
      split
      · exact hclock height since htimer
      · exact Nat.le_refl start
    next => exact Nat.le_refl start
  obtain ⟨hfirst, hturns⟩ := List.forall_mem_cons.mp htry
  rcases step_pass hs (.refl _) hsince hbacklog hfirst with hmoved | ⟨k, hstuck, hk⟩
  · exact UInt64.lt_of_lt_of_le hmoved (Desk.currentHeight_le_run _ turns)
  · exact hstuck.run hs hturns (by omega)

end Progress

end Proposer

namespace Devnet

open Proposer

theorem stakedFork_staked : (ChainState.deliver stakedFork).activeValidators ≠ [] := by
  decide +kernel

/-- After four seconds the first two ranks may propose. -/
theorem stakedFork_schedule :
    ((ChainState.deliver stakedFork).activeValidators.filter
        (eligible { env with stalledFor := 4000 } (ChainState.deliver stakedFork))).length =
      min 2 (ChainState.deliver stakedFork).activeValidators.length := by
  obtain ⟨-, -, hcount⟩ := fallback_schedule stakedFork rfl stakedFork_staked
    { env with stalledFor := 4000 }
  exact hcount

theorem genesis_seat :
    (myValidator env (ChainState.deliver [genesis])).isSome = true ∧
      (ChainState.deliver [genesis]).activeValidators = [] ∧
      (ChainState.deliver [genesis]).currentHeight.toNat + 1 < 2 ^ 64 := by
  decide +kernel

/-- The bootstrap proposer gets past a pending payment that no block can hold, and past its resubmission. -/
theorem wasted_turns :
    ∃ d : Desk crypto, d.chain = ChainState.deliver [genesis] ∧
      d.mempool = Mempool.run serializedSize [.addTransaction (payment 1000 11 12 5)] ∧
      d.chain.currentHeight < (d.run serializedSize (.pass 0 env ::
        .transaction (payment 1000 11 12 5) :: List.replicate 102 (.pass 2000 env))).chain.currentHeight := by
  have hdesk : ∀ (s : ChainState crypto) (m : Mempool crypto),
      ∃ d : Desk crypto, d.chain = s ∧ d.mempool = m ∧ d.stalledSince = none :=
    fun s m => ⟨⟨s, m, none⟩, rfl, rfl, rfl⟩
  obtain ⟨d, hchain, hmempool, htimer⟩ := hdesk (ChainState.deliver [genesis])
    (Mempool.run serializedSize [.addTransaction (payment 1000 11 12 5)])
  obtain ⟨hseat, hempty, hroom⟩ := genesis_seat
  rw [← hchain] at hseat hempty hroom
  have hpass : ∀ now, Turn.Trying d.chain 0 (.pass now env) :=
    fun now => ⟨hseat, Nat.zero_le now, verifyRangeProof_env⟩
  refine ⟨d, hchain, hmempool, proposer_not_stuck _ _ hchain hmempool hroom ?_ ?_ ?_⟩
  · intro height since h
    rw [htimer] at h
    cases h
  · intro t ht
    rcases List.mem_cons.mp ht with rfl | ht
    · exact hpass 0
    rcases List.mem_cons.mp ht with rfl | ht
    · trivial
    · obtain rfl := (List.mem_replicate.mp ht).2
      exact hpass 2000
  · have hlate : (Turn.pass 2000 env).isLate 0 d.chain.activeValidators.length = true := by
      rw [hempty]
      rfl
    rw [List.countP_cons, List.countP_cons, List.countP_replicate, List.countP_replicate, if_pos hlate]
    simp [Turn.isSubmission, Turn.isLate]

end Devnet

end Haze
