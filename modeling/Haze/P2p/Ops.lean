import Haze.Lib.Rumor
import Haze.P2p.Freshness

/-!
# Gossip of operations (`p2p/src/server.rs`, the handlers of `api`)

A node that receives an operation broadcasts it if its mempool takes it, and the mempool takes one
operation for each name, asset, collection or stake commitment. An operation therefore goes through a
node once, until the queue lets go of what it is about: when the proposer drains the queue, or when a
block makes it stale.

The six messages are handled alike, so they are one message with six forms (`OpMessage`), and what an
operation is about is its key (`OpKey`).
-/

namespace Haze

variable {P : Crypto}

/-! ## The queues by what they are about

Each kind of operation has a queue of its own, and a queue holds one operation for a name, an asset, a
collection or a stake. The key of an operation says which queue and for what; what the six handlers do
differs in nothing else that matters here. -/

inductive OpMessage (P : Crypto) where
  | newNameOp (op : RegisterNameOp P)
  | newTransferOp (op : TransferNameOp P)
  | newMintOp (op : MintAssetOp P)
  | newTransferAssetOp (op : TransferAssetOp P)
  | newLaunchCollectionOp (op : LaunchCollectionOp P)
  | newValidatorOp (op : RegisterValidatorOp P)

/-- What an operation is about: the queue it goes to, and what that queue holds once only. -/
inductive OpKey (P : Crypto) where
  | name (name : String)
  | nameTransfer (name : String)
  | asset (assetId : String)
  | assetTransfer (assetId : String)
  | collection (collectionId : String)
  | stake (commitment : Commitment P)
  deriving DecidableEq

namespace OpMessage

def key : OpMessage P → OpKey P
  | newNameOp op => .name op.name
  | newTransferOp op => .nameTransfer op.name
  | newMintOp op => .asset op.assetId
  | newTransferAssetOp op => .assetTransfer op.assetId
  | newLaunchCollectionOp op => .collection op.collectionId
  | newValidatorOp op => .stake op.commitment

/-- The check of the queue; transfers have none. -/
def fit : OpMessage P → Bool
  | newNameOp op => op.validateStandalone.isOk
  | newTransferOp _ => true
  | newMintOp op => op.validateStandalone.isOk
  | newTransferAssetOp _ => true
  | newLaunchCollectionOp op => op.validateStandalone.isOk
  | newValidatorOp op => op.validateStandalone.isOk

end OpMessage

namespace Mempool

variable (m : Mempool P)

/-- The `add` of the queue. -/
def addOp : OpMessage P → Option (Mempool P)
  | .newNameOp op => m.addNameOp op
  | .newTransferOp op => m.addTransferOp op
  | .newMintOp op => m.addMintOp op
  | .newTransferAssetOp op => m.addTransferAssetOp op
  | .newLaunchCollectionOp op => m.addLaunchCollectionOp op
  | .newValidatorOp op => m.addValidatorOp op

/-- What the pending operations are about. -/
def pendingKeys : List (OpKey P) :=
  m.pendingNameOps.map (fun op => OpKey.name op.name) ++
    m.pendingTransferOps.map (fun op => OpKey.nameTransfer op.name) ++
    m.pendingMintOps.map (fun op => OpKey.asset op.assetId) ++
    m.pendingTransferAssetOps.map (fun op => OpKey.assetTransfer op.assetId) ++
    m.pendingLaunchCollectionOps.map (fun op => OpKey.collection op.collectionId) ++
    m.pendingValidatorOps.map fun op => OpKey.stake op.commitment

/-- No queue of operations is full. -/
structure HasRoom : Prop where
  nameOps : m.pendingNameOps.length < maxPendingNameOps
  transferOps : m.pendingTransferOps.length < maxPendingTransferOps
  mintOps : m.pendingMintOps.length < maxPendingMintOps
  transferAssetOps : m.pendingTransferAssetOps.length < maxPendingTransferAssetOps
  launchOps : m.pendingLaunchCollectionOps.length < maxPendingLaunchCollectionOps
  validatorOps : m.pendingValidatorOps.length < maxPendingValidatorOps

variable {m} {m' : Mempool P} {op : OpMessage P}

/-- An operation that is added is in order, and its key was not pending; now it is, and no other key has
come or gone. -/
theorem pendingKeys_addOp (h : m.addOp op = some m') :
    op.fit = true ∧ op.key ∉ m.pendingKeys ∧
      ∀ k, k ∈ m'.pendingKeys ↔ k = op.key ∨ k ∈ m.pendingKeys := by
  cases op
  all_goals
    obtain ⟨queue, hadd, rfl⟩ := Option.map_eq_some_iff.mp h
    obtain ⟨⟨-, hfit, hclash⟩, rfl⟩ := Queue.add_eq_some.mp hadd
    refine ⟨hfit, ?_, ?_⟩
    · simpa [OpMessage.key, pendingKeys] using hclash
    · simp only [OpMessage.key, pendingKeys, List.map_append, List.mem_append, List.map_cons,
        List.map_nil, List.mem_singleton]
      grind

/-- When there is room, an operation in order is pending under its key or is added. -/
theorem exists_addOp (hroom : m.HasRoom) (hfit : op.fit = true) (hkey : op.key ∉ m.pendingKeys) :
    ∃ m', m.addOp op = some m' := by
  obtain ⟨hname, htransfer, hmint, hasset, hlaunch, hvalidator⟩ := hroom
  cases op
  all_goals
    refine ⟨_, Option.map_eq_some_iff.mpr ⟨_, Queue.add_eq_some.mpr ⟨⟨?_, hfit, ?_⟩, rfl⟩, rfl⟩⟩
    · assumption
    · simpa [OpMessage.key, pendingKeys] using hkey

theorem pendingKeys_subset (hname : m'.pendingNameOps ⊆ m.pendingNameOps)
    (htransfer : m'.pendingTransferOps ⊆ m.pendingTransferOps)
    (hmint : m'.pendingMintOps ⊆ m.pendingMintOps)
    (hasset : m'.pendingTransferAssetOps ⊆ m.pendingTransferAssetOps)
    (hlaunch : m'.pendingLaunchCollectionOps ⊆ m.pendingLaunchCollectionOps)
    (hvalidator : m'.pendingValidatorOps ⊆ m.pendingValidatorOps) :
    m'.pendingKeys ⊆ m.pendingKeys := by
  intro k
  simp only [pendingKeys, List.mem_append]
  rintro (((((hk | hk) | hk) | hk) | hk) | hk)
  · exact .inl (.inl (.inl (.inl (.inl (List.map_subset _ hname hk)))))
  · exact .inl (.inl (.inl (.inl (.inr (List.map_subset _ htransfer hk)))))
  · exact .inl (.inl (.inl (.inr (List.map_subset _ hmint hk))))
  · exact .inl (.inl (.inr (List.map_subset _ hasset hk)))
  · exact .inl (.inr (List.map_subset _ hlaunch hk))
  · exact .inr (List.map_subset _ hvalidator hk)

/-- A round only takes operations out. -/
theorem pendingKeys_drain (m : Mempool P) : (Proposer.drain m).2.pendingKeys ⊆ m.pendingKeys := by
  rw [Proposer.drain_eq]
  refine pendingKeys_subset ?_ (List.drop_subset _ _) ?_ (List.drop_subset _ _)
    (List.drop_subset _ _) (List.drop_subset _ _)
  · exact fun op hop => Queue.mem_of_mem_drop_byFee hop
  · exact fun op hop => Queue.mem_of_mem_drop_byFee hop

/-- So does a block. -/
theorem pendingKeys_clearAfter (m : Mempool P) (b : Block P) :
    (m.clearAfter b).pendingKeys ⊆ m.pendingKeys :=
  pendingKeys_subset (List.filter_subset_self _) (List.filter_subset_self _) (List.filter_subset_self _)
    (List.filter_subset_self _) (List.filter_subset_self _) (List.filter_subset_self _)

end Mempool

/-! ## The network

A handler adds the operation and then broadcasts it, each under its own lock. Here both are one step, so a
relay counts as on its way from the moment the operation is in the queue. -/

/-- What else changes the queues of a node. -/
inductive OpAct (P : Crypto) where
  /-- A client's operation, once the handler's own checks have passed. -/
  | submit (op : OpMessage P)
  /-- A transaction that `add_transaction` is given. -/
  | transaction (tx : Transaction P)
  /-- A round in which it is this node's turn. -/
  | round
  /-- A block was taken from a peer. -/
  | applied (b : Block P)

/-- The arms for the six messages, and the ends of the six handlers: the mempool afterwards, and whether
the operation is broadcast. -/
def handleOp (mempool : Mempool P) (op : OpMessage P) : Mempool P × Bool :=
  match mempool.addOp op with
  | some mempool => (mempool, true)
  | none => (mempool, false)

def OpAct.run (serializedSize : Transaction P → Option UInt64) (mempool : Mempool P) :
    OpAct P → Mempool P × Option (OpMessage P)
  | .submit op =>
      let (mempool, added) := handleOp mempool op
      (mempool, if added then some op else none)
  | .transaction tx => ((mempool.addTransaction serializedSize tx).getD mempool, none)
  | .round => ((Proposer.drain mempool).2, none)
  | .applied b => (mempool.clearAfter b, none)

def opProtocol (serializedSize : Transaction P → Option UInt64) :
    Protocol (Mempool P) (OpMessage P) (OpAct P) :=
  ⟨handleOp, OpAct.run serializedSize⟩

/-- A key is pending. -/
def pendingKey (m : Mempool P) (k : OpKey P) : Prop := k ∈ m.pendingKeys

instance (m : Mempool P) (k : OpKey P) : Decidable (pendingKey m k) :=
  inferInstanceAs (Decidable (k ∈ m.pendingKeys))

theorem handleOp_cases (m : Mempool P) (op : OpMessage P) :
    (m.addOp op = some (handleOp m op).1 ∧ (handleOp m op).2 = true) ∨
      (m.addOp op = none ∧ handleOp m op = (m, false)) := by
  unfold handleOp
  cases hadd : m.addOp op with
  | some m' => exact .inl ⟨rfl, rfl⟩
  | none => exact .inr ⟨rfl, rfl⟩

variable {serializedSize : Transaction P → Option UInt64} {ok : OpMessage P → Prop}
  {may : OpAct P → Prop}

theorem pendingKeys_addTransaction (m : Mempool P) (tx : Transaction P) :
    ((m.addTransaction serializedSize tx).getD m).pendingKeys = m.pendingKeys := by
  unfold Mempool.addTransaction
  split
  · rfl
  split
  · rfl
  split
  · rfl
  · rfl

/-- A move of a node adds one operation and sends it, or sends nothing and adds none. -/
theorem opProtocol_cases {m m' : Mempool P} {sent : Option (OpMessage P)}
    (h : (opProtocol serializedSize).Move ok may m m' sent) :
    (∃ op, sent = some op ∧ m.addOp op = some m') ∨ (sent = none ∧ m'.pendingKeys ⊆ m.pendingKeys) := by
  have hop : ∀ op, (∃ op', (if (handleOp m op).2 then some op else none) = some op' ∧
      m.addOp op' = some (handleOp m op).1) ∨
      ((if (handleOp m op).2 then some op else none) = none ∧
        (handleOp m op).1.pendingKeys ⊆ m.pendingKeys) := by
    intro op
    rcases handleOp_cases m op with ⟨hadd, hsent⟩ | ⟨-, hsame⟩
    · exact .inl ⟨op, by rw [hsent, if_pos rfl], hadd⟩
    · rw [hsame]
      exact .inr ⟨rfl, List.Subset.refl _⟩
  cases h with
  | @react op _ => exact hop op
  | @act a _ =>
      cases a with
      | submit op => exact hop op
      | transaction tx =>
          refine .inr ⟨rfl, ?_⟩
          show ((m.addTransaction serializedSize tx).getD m).pendingKeys ⊆ _
          rw [pendingKeys_addTransaction]
          exact List.Subset.refl _
      | round => exact .inr ⟨rfl, Mempool.pendingKeys_drain m⟩
      | applied b => exact .inr ⟨rfl, Mempool.pendingKeys_clearAfter m b⟩

theorem opProtocol_wary (k : OpKey P) :
    (opProtocol serializedSize).Wary ok may OpMessage.key pendingKey k := by
  intro m m' op hmove hkey
  rcases opProtocol_cases hmove with ⟨op', hsent, hadd⟩ | ⟨hsent, -⟩
  · obtain rfl : op = op' := Option.some.inj hsent
    obtain ⟨-, hnew, hmem⟩ := Mempool.pendingKeys_addOp hadd
    rw [hkey] at hnew hmem
    exact ⟨hnew, (hmem k).mpr (.inl rfl)⟩
  · cases hsent

theorem opProtocol_spreads (k : OpKey P) :
    (opProtocol serializedSize).Spreads ok may OpMessage.key pendingKey k
      (fun op => op.fit = true) Mempool.HasRoom := by
  constructor
  · intro m m' sent hmove hbefore hafter
    rcases opProtocol_cases hmove with ⟨op, rfl, hadd⟩ | ⟨-, hsubset⟩
    · obtain ⟨hfit, -, hmem⟩ := Mempool.pendingKeys_addOp hadd
      rcases (hmem k).mp hafter with hkey | hpending
      · exact ⟨op, rfl, hkey.symm, hfit⟩
      · exact absurd hpending hbefore
    · exact absurd (hsubset hafter) hbefore
  · intro m op hroom hfit hkey
    show pendingKey (handleOp m op).1 k
    rcases handleOp_cases m op with ⟨hadd, -⟩ | ⟨hnone, hsame⟩
    · obtain ⟨-, -, hmem⟩ := Mempool.pendingKeys_addOp hadd
      exact (hmem k).mpr (.inl hkey.symm)
    · -- refused though there is room, so the key is pending
      rw [hsame]
      by_contra hpending
      rw [pendingKey, ← hkey] at hpending
      obtain ⟨m', hadd⟩ := Mempool.exists_addOp hroom hfit hpending
      rw [hnone] at hadd
      cases hadd

section Network

open Flood

variable {V : Type} [Fintype V] [DecidableEq V] [DecidableEq (OpMessage P)] {G : SimpleGraph V}
  [DecidableRel G.Adj] {net net' : Flood V (Mempool P) (OpMessage P)}
  {events : List (Event V (OpMessage P) (OpAct P))}

/-- **An operation goes through a node once, and through every node.** In every history a node
broadcasts what is about one name, asset, collection or stake at most once more than its queue lets go
of it. While no queue is full, none lets go of it and no message about it is lost, an operation that one
node of a connected network takes is broadcast by every node exactly once and pending at all of them
when nothing about it is under way any more. -/
theorem op_gossip (h : net.history G (opProtocol serializedSize) events = some net') (k : OpKey P) :
    (∀ v, net'.sends OpMessage.key v k ≤ net.sends OpMessage.key v k +
        drops G (opProtocol serializedSize) pendingKey v k net events + 1) ∧
      (G.Preconnected → (∀ v, ¬ pendingKey (net.nodes v) k) →
        Undisturbed G (opProtocol serializedSize) OpMessage.key pendingKey Mempool.HasRoom k net events →
        (∀ v op, (v, op) ∈ net'.inFlight → op.key ≠ k) → (∃ v, pendingKey (net'.nodes v) k) →
          ∀ v, pendingKey (net'.nodes v) k ∧
            net'.sends OpMessage.key v k = net.sends OpMessage.key v k + 1) := by
  have hwithin : ∀ e ∈ events, e.Within (fun _ : OpMessage P => True) (fun _ : OpAct P => True) := by
    intro e _
    cases e <;> trivial
  have honce : ∀ v, net'.sends OpMessage.key v k ≤ net.sends OpMessage.key v k +
      drops G (opProtocol serializedSize) pendingKey v k net events + 1 := by
    intro v
    have hle := sends_le (v := v) (opProtocol_wary k) hwithin h
    split at hle <;> split at hle <;> omega
  refine ⟨honce, ?_⟩
  rintro hG hstart hcalm hquiet ⟨u, hu⟩ v
  have htold : Told G OpMessage.key pendingKey (fun op => op.fit = true) k net' := by
    refine Told.history (opProtocol_spreads k) ?_ hcalm hwithin h
    intro u _ _ hholds
    exact absurd hholds (hstart u)
  have hv := htold.all_hold hG hquiet hu v
  refine ⟨hv, Nat.le_antisymm ?_ ?_⟩
  · have hle := honce v
    rwa [hcalm.drops_eq_zero, Nat.add_zero] at hle
  · have hle := le_sends (v := v) (opProtocol_spreads k) hwithin h
    rw [if_pos hv, if_neg (hstart v)] at hle
    exact hle

end Network

namespace Devnet

open Flood

/-- A stake registration that a client gives to the first of two nodes. -/
def stakeMessage : OpMessage crypto := .newValidatorOp stakeOp

/-- A mempool with it. -/
def stakePool : Mempool crypto := { Mempool.new with pendingValidatorOps := [stakeOp] }

theorem addOp_stakeMessage : Mempool.new.addOp stakeMessage = some stakePool := by
  have hfit : stakeOp.validateStandalone.isOk = true := by decide +kernel
  rw [stakeMessage, Mempool.addOp]
  simp [Mempool.addValidatorOp, Queue.add, Mempool.new, stakePool, hfit, maxPendingValidatorOps,
    maxValidatorOpsPerBlock]

theorem handleOp_new : handleOp Mempool.new stakeMessage = (stakePool, true) := by
  rw [handleOp, addOp_stakeMessage]

theorem handleOp_stakePool : handleOp stakePool stakeMessage = (stakePool, false) := by
  rcases handleOp_cases stakePool stakeMessage with ⟨hadd, -⟩ | ⟨-, hsame⟩
  · exact absurd (by decide) (Mempool.pendingKeys_addOp hadd).2.1
  · exact hsame

theorem broadcast_not (v : Bool) : broadcast (⊤ : SimpleGraph Bool) v stakeMessage =
    {(!v, stakeMessage)} := by
  have hpeers : Finset.univ.filter ((⊤ : SimpleGraph Bool).Adj v) = {!v} := by
    cases v <;> decide
  rw [broadcast, hpeers]
  rfl

def stakeNet (nodes : Bool → Mempool crypto) (inFlight : Multiset (Bool × OpMessage crypto))
    (forwarded : List (Bool × OpMessage crypto)) : Flood Bool (Mempool crypto) (OpMessage crypto) :=
  ⟨nodes, inFlight, forwarded⟩

open scoped Classical in
/-- The first node takes it and tells the second, which takes it and tells the first. -/
theorem stakeMessage_gossip :
    ∃ net', (stakeNet (fun _ => .new) 0 []).history ⊤ (opProtocol Devnet.serializedSize)
        [.act true (.submit stakeMessage), .deliver false stakeMessage, .deliver true stakeMessage] =
          some net' ∧
      ∀ v, pendingKey (net'.nodes v) stakeMessage.key ∧ net'.sends OpMessage.key v stakeMessage.key = 1 := by
  -- the networks after the first, the second and the third event
  let net₁ := stakeNet (Function.update (fun _ => .new) true stakePool) {(false, stakeMessage)}
    [(true, stakeMessage)]
  let net₂ := stakeNet (fun _ => stakePool) {(true, stakeMessage)}
    [(true, stakeMessage), (false, stakeMessage)]
  let net₃ := stakeNet (fun _ => stakePool) 0 [(true, stakeMessage), (false, stakeMessage)]
  have hboth : Function.update (Function.update (fun _ : Bool => Mempool.new) true stakePool) false
      stakePool = fun _ => stakePool := by
    funext v
    cases v <;> rfl
  have hstep₁ : (stakeNet (fun _ => .new) 0 []).step ⊤ (opProtocol Devnet.serializedSize)
      (.act true (.submit stakeMessage)) = some net₁ := by
    simp [step, stakeNet, opProtocol, OpAct.run, handleOp_new, broadcast_not, net₁]
  have hstep₂ : net₁.step ⊤ (opProtocol Devnet.serializedSize) (.deliver false stakeMessage) = some net₂ := by
    simp [step, Flood.deliver, stakeNet, opProtocol, handleOp_new, broadcast_not, hboth, net₁, net₂]
  have hstep₃ : net₂.step ⊤ (opProtocol Devnet.serializedSize) (.deliver true stakeMessage) = some net₃ := by
    simp [step, Flood.deliver, stakeNet, opProtocol, handleOp_stakePool, net₂, net₃]
  have hrun : (stakeNet (fun _ => .new) 0 []).history ⊤ (opProtocol Devnet.serializedSize)
      [.act true (.submit stakeMessage), .deliver false stakeMessage, .deliver true stakeMessage] =
        some net₃ := by
    rw [history_cons, hstep₁, Option.bind_some, history_cons, hstep₂, Option.bind_some, history_cons,
      hstep₃]
    rfl
  have hnew : ¬ pendingKey (Mempool.new : Mempool crypto) stakeMessage.key := by decide
  have hpool : pendingKey stakePool stakeMessage.key := by decide
  have hroom₀ : (Mempool.new : Mempool crypto).HasRoom := by
    constructor <;> simp [Mempool.new, maxPendingNameOps, maxPendingTransferOps, maxPendingMintOps,
      maxPendingTransferAssetOps, maxPendingLaunchCollectionOps, maxPendingValidatorOps,
      maxNameOpsPerBlock, maxTransferOpsPerBlock, maxMintOpsPerBlock, maxTransferAssetOpsPerBlock,
      maxLaunchOpsPerBlock, maxValidatorOpsPerBlock]
  have hroom : stakePool.HasRoom :=
    ⟨hroom₀.nameOps, hroom₀.transferOps, hroom₀.mintOps, hroom₀.transferAssetOps, hroom₀.launchOps,
      by simp [stakePool, maxPendingValidatorOps, maxValidatorOpsPerBlock]⟩
  -- nothing drops the key, and every queue has room throughout
  have hcalm : Undisturbed ⊤ (opProtocol Devnet.serializedSize) OpMessage.key pendingKey
      Mempool.HasRoom stakeMessage.key (stakeNet (fun _ => .new) 0 [])
      [.act true (.submit stakeMessage), .deliver false stakeMessage, .deliver true stakeMessage] := by
    refine ⟨fun _ => hroom₀, by simp, ?_⟩
    intro net hnet
    obtain rfl : net₁ = net := Option.some.inj (hstep₁.symm.trans hnet)
    refine ⟨fun _ hholds => absurd hholds hnew, ?_, by simp, ?_⟩
    · intro v
      cases v
      · exact hroom₀
      · exact hroom
    intro net hnet
    obtain rfl : net₂ = net := Option.some.inj (hstep₂.symm.trans hnet)
    refine ⟨fun _ _ => hpool, fun _ => hroom, by simp, ?_⟩
    intro net hnet
    obtain rfl : net₃ = net := Option.some.inj (hstep₃.symm.trans hnet)
    exact ⟨fun _ _ => hpool, trivial⟩
  refine ⟨net₃, hrun, ?_⟩
  have hall := (op_gossip hrun stakeMessage.key).2 SimpleGraph.preconnected_top (fun _ => hnew) hcalm
    (by simp [net₃, stakeNet]) ⟨true, hpool⟩
  simpa [sends, stakeNet] using hall

end Devnet

end Haze
