import Haze.Chain.Quota
import Haze.Chain.Redirect
import Haze.Proposer.Waiting

/-!
# Submitting operations (`api/src/names.rs`, `assets.rs`, `collections.rs`)

A client hands an operation to a node, which looks at it twice: the handler asks the chain as it is now,
so that the client hears at once of what could not be mined, and the mempool asks whether there is room.
The chain's own rules come last, in a block. The handlers are a third copy of these rules, after those of
the chain and of the proposer.

Here the copies agree. What a handler queues has its place in the node's next block, if it stands in the
front of its lane; what it refuses for a reason of the chain no block on this chain carries. A sale is
the one exception: a handler wants the payment on the chain, and the chain also takes it from the block
itself.
-/

namespace Haze

open Checked

variable {P : Crypto}

/-! ## The handlers

Six handlers, one for each kind of operation. Each asks the chain first and then puts the operation into its
queue, which has the last word. -/

/-- What the client hears. -/
inductive SubmitReply where
  | queued
  | error (status : ℕ) (error : String)
  deriving DecidableEq

/-- `{:?}`. -/
def NameError.debug : NameError → String
  | .tooShort => "TooShort"
  | .tooLong => "TooLong"
  | .invalidCharacters => "InvalidCharacters"
  | .reserved => "Reserved"
  | .alreadyRegistered => "AlreadyRegistered"
  | .invalidSignature => "InvalidSignature"
  | .invalidFeePayment => "InvalidFeePayment"

@[inherit_doc NameError.debug]
def AssetError.debug : AssetError → String
  | .tooShort => "TooShort"
  | .tooLong => "TooLong"
  | .invalidCharacters => "InvalidCharacters"
  | .alreadyMinted => "AlreadyMinted"
  | .invalidSignature => "InvalidSignature"
  | .invalidFeePayment => "InvalidFeePayment"
  | .metadataTooLong => "MetadataTooLong"
  | .collectionFieldsMismatched => "CollectionFieldsMismatched"
  | .missingOrInvalidCreatorApproval => "MissingOrInvalidCreatorApproval"
  | .allowlistProofTooLong => "AllowlistProofTooLong"

@[inherit_doc NameError.debug]
def CollectionError.debug : CollectionError → String
  | .tooShort => "TooShort"
  | .tooLong => "TooLong"
  | .invalidCharacters => "InvalidCharacters"
  | .alreadyLaunched => "AlreadyLaunched"
  | .invalidSignature => "InvalidSignature"
  | .metadataTooLong => "MetadataTooLong"
  | .nameTooLong => "NameTooLong"
  | .symbolTooLong => "SymbolTooLong"
  | .noPhases => "NoPhases"
  | .tooManyPhases => "TooManyPhases"
  | .invalidPhaseWindow => "InvalidPhaseWindow"
  | .phasesNotSequential => "PhasesNotSequential"
  | .zeroPerWalletLimit => "ZeroPerWalletLimit"
  | .royaltyTooHigh => "RoyaltyTooHigh"

/-- The end of every handler. -/
def enqueue (m : Mempool P) (op : OpMessage P) (refused : String) : SubmitReply × Mempool P :=
  match m.addOp op with
  | some m => (.queued, m)
  | none => (.error 400 refused, m)

/-- The handlers of what registers something new: the operation is checked on its own, and what it
registers must not be there yet. -/
def handleNew {ε : Type} (invalid : String) (debug : ε → String) (checked : Except ε Unit) (taken : Bool)
    (conflict : String) (op : OpMessage P) (refused : String) (m : Mempool P) : SubmitReply × Mempool P :=
  match checked with
  | .error e => (.error 400 (invalid ++ debug e), m)
  | .ok _ => if taken then (.error 409 conflict, m) else enqueue m op refused

def handleRegisterName (s : ChainState P) (op : RegisterNameOp P) (m : Mempool P) :
    SubmitReply × Mempool P :=
  handleNew "invalid registration: " NameError.debug op.validateStandalone (op.name ∈ s.nameRegistry)
    ("name '" ++ op.name ++ "' is already registered") (.newNameOp op)
    "name already pending registration or has an unresolvable fee-payment input" m

def handleMintAsset (s : ChainState P) (op : MintAssetOp P) (m : Mempool P) : SubmitReply × Mempool P :=
  handleNew "invalid mint: " AssetError.debug op.validateStandalone (op.assetId ∈ s.assetRegistry)
    ("asset '" ++ op.assetId ++ "' is already minted") (.newMintOp op)
    "asset_id already pending mint or has an unresolvable fee-payment input" m

def handleLaunchCollection (s : ChainState P) (op : LaunchCollectionOp P) (m : Mempool P) :
    SubmitReply × Mempool P :=
  handleNew "invalid collection launch: " CollectionError.debug op.validateStandalone
    (op.collectionId ∈ s.collectionRegistry)
    ("collection '" ++ op.collectionId ++ "' is already launched") (.newLaunchCollectionOp op)
    "collection_id already pending launch, or failed standalone validation" m

def handleTransferName (s : ChainState P) (op : TransferNameOp P) (m : Mempool P) :
    SubmitReply × Mempool P :=
  match s.nameRegistry.lookup op.name with
  | none => (.error 404 ("name '" ++ op.name ++ "' is not registered"), m)
  | some current =>
      let msg := TransferNameOp.signingMessage op.name op.newOwnerPubkey op.newResolvesTo
      if !op.signature.verify msg current.ownerPubkey then
        (.error 403 "signature does not match the name's current owner", m)
      else enqueue m (.newTransferOp op) "name already has a pending transfer"

/-- The second half of the checks in `handle_transfer_asset`, on the royalty of a sale. -/
def royaltyRefusal (s : ChainState P) (current : AssetRecord P) (op : TransferAssetOp P) :
    Option (ℕ × String) :=
  if op.requiredKernelExcess.isSome then
    match current.collectionId.bind fun id => s.collectionRegistry.lookup id with
    | some collection =>
        if collection.royaltyBps > 0 then
          match op.requiredRoyaltyKernelExcess with
          | none =>
              some (400, "this collection charges a royalty - required_royalty_kernel_excess must be set")
          | some requiredRoyalty =>
              if requiredRoyalty ∉ s.kernelExcesses then
                some (409, "required_royalty_kernel_excess does not exist on-chain yet - " ++
                  "broadcast the royalty payment first")
              else none
        else none
    | none => none
  else none

def handleTransferAsset (s : ChainState P) (op : TransferAssetOp P) (m : Mempool P) :
    SubmitReply × Mempool P :=
  match s.assetRegistry.lookup op.assetId with
  | none => (.error 404 ("asset '" ++ op.assetId ++ "' is not minted"), m)
  | some current =>
      let msg := TransferAssetOp.signingMessage op.assetId op.newOwnerPubkey op.requiredKernelExcess
        op.requiredRoyaltyKernelExcess
      if !op.signature.verify msg current.ownerPubkey then
        (.error 403 "signature does not match the asset's current owner", m)
      else if op.requiredKernelExcess.any fun requiredExcess => requiredExcess ∉ s.kernelExcesses then
        (.error 409 ("required_kernel_excess does not exist on-chain yet - " ++
          "broadcast the payment transaction first"), m)
      else
        match royaltyRefusal s current op with
        | some (status, error) => (.error status error, m)
        | none => enqueue m (.newTransferAssetOp op) "asset already has a pending transfer"

/-! ## What is queued

What a client is told should hold. An operation that is queued goes to the end of its lane, and the proposer
takes the first operations of every lane; so whether the next block carries it is a matter of the place. -/

/-- The handler's answer is one the client can count on. When the operation is refused, nothing has
happened; when it is queued, it stands last in its lane, and if that is within what a block takes, the
block of a round on the same chain carries it. -/
structure Lane.Settles (L : Lane P) (s : ChainState P) (m : Mempool P) (op : L.Op)
    (answer : SubmitReply × Mempool P) : Prop where
  refused : answer.1 ≠ .queued → answer.2 = m
  queued : answer.1 = .queued → op ∈ L.pending answer.2 ∧ L.place ⟨s, answer.2⟩ op = (L.pending m).length
  mined : answer.1 = .queued → (L.pending m).length < L.cap → ∀ e b result,
    (Proposer.round e s answer.2).2 = some (b, result) →
      op ∈ L.inBlock b ∧
        (result.isApplied = true → L.written s b (Proposer.round e s answer.2).1.1 op)

section Settles

variable {s : ChainState P} {m : Mempool P} {L : Lane P}

theorem Lane.Settles.of_refused {op : L.Op} {status : ℕ} {text : String} :
    L.Settles s m op (.error status text, m) :=
  ⟨fun _ => rfl, nofun, nofun⟩

/-- An operation that gets as far as the queue, and for which the chain has a place. -/
theorem Lane.Settles.of_enqueue (hL : L ∈ lanes P) (hm : m.Orderly) (hadmitted : m.Admitted)
    {msg : OpMessage P} {op : L.Op}
    (hjoins : ∀ {m' : Mempool P}, m.addOp msg = some m' → L.pending m' = L.pending m ++ [op])
    (hfits : ∀ m' e validator,
      L.fits s m' (Proposer.assembleBlock e s (Proposer.drain m').1 validator) op) (text : String) :
    L.Settles s m op (enqueue m msg text) := by
  unfold enqueue
  cases hadd : m.addOp msg with
  | none => exact .of_refused
  | some m' =>
      have hpending := hjoins hadd
      -- the mempool stays in order, also with the new operation
      have hsound : (⟨s, m'⟩ : Site P).Sound := by
        have hstep : (Site.step (fun _ => none) ⟨s, m⟩ (.op msg)).Sound :=
          Site.Sound.step ⟨hm, hadmitted⟩ (.op msg)
        have hmempool : (handleOp m msg).1 = m' := by
          unfold handleOp
          rw [hadd]
        rw [Site.Sound, Site.step, hmempool] at hstep
        exact hstep
      have hlast : op ∈ L.pending m' := by
        rw [hpending]
        exact List.mem_append_right _ (List.mem_singleton_self op)
      refine ⟨fun h => absurd rfl h, fun _ => ⟨hlast, ?_⟩, fun _ hroom e b result hround => ?_⟩
      -- the place is the number of operations that were there before
      · have hnodup := (moves_of_mem hL).distinct hsound.1
        simp only [Lane.place, hpending]
        apply Fifo.place_concat
        rw [hpending, List.map_append] at hnodup
        exact fun hmem => (List.nodup_append.mp hnodup).2.2 _ hmem _ (List.mem_singleton_self _) rfl
      · have hfront : op ∈ (L.pending m').take L.cap := by
          rw [List.take_of_length_le]
          · exact hlast
          · rw [hpending, List.length_append, List.length_singleton]
            exact hroom
        -- a round is idle, or it proposes what the lanes hand over
        rcases Proposer.round_cases e s m' with hidle | ⟨validator, -, -, heq⟩
        · rw [hidle] at hround
          cases hround
        · rw [heq] at hround
          obtain ⟨rfl, rfl⟩ := Prod.mk.inj (Option.some.inj hround)
          obtain ⟨hin, hwritten⟩ := Proposer.judged_of_mem e s validator hL hsound.1 hsound.2 hfront
          have hcarried := hin.mpr (hfits m' e validator)
          show _ ∧ (_ → L.written s _ (Proposer.round e s m').1.1 op)
          rw [heq]
          exact ⟨hcarried, fun happlied => hwritten happlied hcarried⟩

/-- The chain, the handler and the proposer read the royalty of a collection that is there already. -/
theorem royaltyOk_of_royaltyRefusal {current : AssetRecord P} {op : TransferAssetOp P}
    {excesses : List (Commitment P)} {collections : KeyedMap String (CollectionRecord P)}
    (hlaunched : ∀ id, current.collectionId = some id → id ∈ s.collectionRegistry)
    (hkept : ∀ k record, s.collectionRegistry.lookup k = some record → collections.lookup k = some record)
    (h : royaltyRefusal s current op = none) :
    Proposer.royaltyOk s excesses collections current op = true := by
  unfold Proposer.royaltyOk
  split
  swap
  · rfl
  next hsale =>
    cases hid : current.collectionId with
    | none => rfl
    | some id =>
        obtain ⟨collection, hlookup⟩ := Finmap.mem_iff.mp (hlaunched id hid)
        simp only [royaltyRefusal, hsale, if_true, hid, Option.bind_some, hlookup] at h
        simp only [Option.bind_some, hkept id collection hlookup]
        split at h
        next hcharges =>
          rw [if_pos hcharges]
          split at h
          next => cases h
          next requiredRoyalty hroyalty =>
            split at h
            next => cases h
            next hpaid =>
              rw [hroyalty]
              simpa using .inl (not_not.mp hpaid)
        next hfree => rw [if_neg hfree]

/-- Launches leave the collections that are there. -/
theorem lookup_selectLaunchOps {ops : List (LaunchCollectionOp P)} {k : String} {record : CollectionRecord P}
    (h : s.collectionRegistry.lookup k = some record) :
    (Proposer.selectLaunchOps s ops).registry.lookup k = some record := by
  refine foldl_induct (motive := fun acc : Proposer.LaunchSelection P =>
    acc.registry.lookup k = some record) h ?_ ops
  intro acc op ih
  unfold Proposer.selectLaunchOp
  split
  · exact ih
  next hkeep =>
    have hne : k ≠ op.collectionId := by
      rintro rfl
      simp [Proposer.keepsLaunchOp, Finmap.mem_of_lookup_eq_some ih] at hkeep
    rw [Finmap.lookup_insert_of_ne _ hne]
    exact ih

theorem handleTransferName_settles (hm : m.Orderly) (hadmitted : m.Admitted) (op : TransferNameOp P) :
    (transferLane P).Settles s m op (handleTransferName s op m) := by
  unfold handleTransferName
  split
  · exact .of_refused
  next current hlookup =>
    dsimp only
    split
    · exact .of_refused
    next hsigned =>
      refine .of_enqueue (by simp [lanes]) hm hadmitted ?_ ?_ _
      · intro m' hadd
        obtain ⟨queue, hq, rfl⟩ := Option.map_eq_some_iff.mp hadd
        obtain ⟨-, rfl⟩ := Queue.add_eq_some.mp hq
        rfl
      · intro m' e validator
        exact ⟨current, hlookup, by simpa [TransferNameOp.signedBy] using hsigned⟩

theorem handleTransferAsset_settles (hm : m.Orderly) (hadmitted : m.Admitted)
    (hlaunched : ∀ assetId r id, s.assetRegistry.lookup assetId = some r → r.collectionId = some id →
      id ∈ s.collectionRegistry) (op : TransferAssetOp P) :
    (transferAssetLane P).Settles s m op (handleTransferAsset s op m) := by
  unfold handleTransferAsset
  split
  · exact .of_refused
  next current hlookup =>
    dsimp only
    split
    · exact .of_refused
    next hsigned =>
      split
      · exact .of_refused
      next hpaid =>
        split
        · exact .of_refused
        next hroyalty =>
          refine .of_enqueue (by simp [lanes]) hm hadmitted ?_ ?_ _
          · intro m' hadd
            obtain ⟨queue, hq, rfl⟩ := Option.map_eq_some_iff.mp hadd
            obtain ⟨-, rfl⟩ := Queue.add_eq_some.mp hq
            rfl
          · intro m' e validator
            refine ⟨current, hlookup, by simpa [TransferAssetOp.signedBy] using hsigned, ?_, ?_⟩
            · intro c hc
              rw [Option.mem_def] at hc
              rw [hc] at hpaid
              exact .inl (by simpa using hpaid)
            · refine royaltyOk_of_royaltyRefusal (hlaunched op.assetId current · hlookup) ?_ hroyalty
              intro k record hrecord
              show (s.collectionsAfter _).lookup k = some record
              have hsame : s.collectionsAfter (Proposer.assembleBlock e s (Proposer.drain m').1 validator) =
                  (Proposer.selectLaunchOps s (Proposer.drain m').1.launchOps).registry :=
                (Proposer.registry_selectLaunchOps _ _).symm
              rw [hsame]
              exact lookup_selectLaunchOps hrecord

theorem handleLaunchCollection_settles (hm : m.Orderly) (hadmitted : m.Admitted)
    (op : LaunchCollectionOp P) :
    (launchLane P).Settles s m op (handleLaunchCollection s op m) := by
  unfold handleLaunchCollection handleNew
  split
  · exact .of_refused
  · split
    · exact .of_refused
    next hnew =>
      refine .of_enqueue (by simp [lanes]) hm hadmitted ?_ ?_ _
      · intro m' hadd
        obtain ⟨queue, hq, rfl⟩ := Option.map_eq_some_iff.mp hadd
        obtain ⟨-, rfl⟩ := Queue.add_eq_some.mp hq
        rfl
      · intro m' e validator
        show op.collectionId ∉ s.collectionRegistry
        simpa using hnew

end Settles

/-! ## What is refused

In the other direction: an operation from any acceptable block meets nothing in the handlers that the chain
did not ask as well. One sale is different, since the payment kernel may be in the block that carries it and
not on the chain yet. -/

/-- The handler has no objection of its own and leaves the operation to its queue. -/
def LeftToQueue (m : Mempool P) (op : OpMessage P) (answer : SubmitReply × Mempool P) : Prop :=
  ∃ refused, answer = enqueue m op refused

section Refused

open ChainState

variable {s : ChainState P} {m : Mempool P} {b : Block P} {c : Candidate P}

/-- What every step of a checked loop asks of its element holds of all of them. -/
theorem forall_of_foldlM {α σ : Type} {f : σ → α → Option σ} {Q : α → Prop}
    (hstep : ∀ t x t', f t x = some t' → Q x) {xs : List α} {t t' : σ} (h : xs.foldlM f t = some t') :
    ∀ x ∈ xs, Q x := by
  refine foldlM_induct (motive := fun xs _ => ∀ x ∈ xs, Q x) (List.forall_mem_nil _) ?_ h
  intro xs x t t' ih hx
  rw [List.forall_mem_append, List.forall_mem_singleton]
  exact ⟨ih, hstep t x t' hx⟩

/-- What a block registers is in order on its own. -/
theorem valid_of_checkBlock (h : s.checkBlock b = some c) :
    (∀ op ∈ b.nameOps, op.validateStandalone.isOk = true) ∧
      (∀ op ∈ b.mintOps, op.validateStandalone.isOk = true) ∧
        ∀ op ∈ b.launchCollectionOps, op.validateStandalone.isOk = true := by
  obtain ⟨-, hops, -⟩ := checkBlock_eq_some_iff.mp h
  have hops' := hops
  simp only [checkOps, Option.bind_eq_bind, Option.bind_eq_some_iff] at hops'
  obtain ⟨_, -, _, -, launched, hlaunched, minted, hminted, -⟩ := hops'
  refine ⟨valid_of_checkOps hops, forall_of_foldlM ?_ hminted, forall_of_foldlM ?_ hlaunched⟩
  · intro acc op acc' hop
    simp only [checkMintOp, Option.bind_eq_bind, Option.bind_eq_some_iff, ensure_eq_some,
      exists_const] at hop
    exact hop.1
  · intro acc op acc' hop
    simp only [checkLaunchOp, Option.bind_eq_bind, Option.bind_eq_some_iff, ensure_eq_some,
      exists_const] at hop
    exact hop.1

theorem handleNew_left {ε : Type} {invalid conflict refused : String} {debug : ε → String}
    {checked : Except ε Unit} {taken : Bool} {op : OpMessage P} (hvalid : checked.isOk = true)
    (hnew : taken = false) :
    LeftToQueue m op (handleNew invalid debug checked taken conflict op refused m) := by
  cases checked with
  | error e => cases hvalid
  | ok u =>
      rw [hnew]
      exact ⟨refused, rfl⟩

/-- A royalty that the chain is content with may be one that the block brings. -/
theorem royaltyRefusal_of_royaltyMet {current : AssetRecord P} {op : TransferAssetOp P}
    (h : s.royaltyMet b current op = true) :
    royaltyRefusal s current op = none ∨ ∃ text, royaltyRefusal s current op = some (409, text) := by
  unfold royaltyRefusal
  split
  swap
  · exact .inl rfl
  next hsale =>
    obtain ⟨excess, hexcess⟩ := Option.isSome_iff_exists.mp hsale
    split
    swap
    · exact .inl rfl
    next collection hcollection =>
      simp only [royaltyMet, hexcess, hcollection] at h
      split
      swap
      · exact .inl rfl
      next hcharges =>
        rw [if_pos hcharges] at h
        split
        next hnone =>
          rw [hnone] at h
          cases h
        next requiredRoyalty _ =>
          split
          · exact .inr ⟨_, rfl⟩
          · exact .inl rfl

theorem handleTransferAsset_left (h : s.checkBlock b = some c) {op : TransferAssetOp P}
    (hop : op ∈ b.transferAssetOps) :
    LeftToQueue m (.newTransferAssetOp op) (handleTransferAsset s op m) ∨
      ∃ text, handleTransferAsset s op m = (.error 409 text, m) := by
  obtain ⟨seen, hassets⟩ := (recorded_of_checkBlock h).assets
  obtain ⟨current, hlookup, hsigned, -, hroyalty, -⟩ := hassets.transferred op hop
  have hverify : op.signature.verify (TransferAssetOp.signingMessage op.assetId op.newOwnerPubkey
      op.requiredKernelExcess op.requiredRoyaltyKernelExcess) current.ownerPubkey = true := hsigned
  simp only [handleTransferAsset, hlookup, hverify, Bool.not_true, Bool.false_eq_true, if_false]
  split
  · exact .inr ⟨_, rfl⟩
  · rcases royaltyRefusal_of_royaltyMet hroyalty with hnone | ⟨text, hsome⟩
    · rw [hnone]
      exact .inl ⟨_, rfl⟩
    · rw [hsome]
      exact .inr ⟨text, rfl⟩

theorem handleTransferName_left (h : s.checkBlock b = some c) {op : TransferNameOp P}
    (hop : op ∈ b.transferOps) : LeftToQueue m (.newTransferOp op) (handleTransferName s op m) := by
  obtain ⟨seen, hnames⟩ := (recorded_of_checkBlock h).names
  obtain ⟨current, hlookup, hsigned, -⟩ := hnames.transferred op hop
  have hverify : op.signature.verify (TransferNameOp.signingMessage op.name op.newOwnerPubkey
      op.newResolvesTo) current.ownerPubkey = true := hsigned
  simp only [handleTransferName, hlookup, hverify, Bool.not_true, Bool.false_eq_true, if_false]
  exact ⟨_, rfl⟩

/-- **The front door agrees with the chain.** In every reachable state of the chain, and with a mempool
that any calls have led to: a transfer of a name, a transfer of an asset and a launch are refused without
effect, or queued, and then the next block of this node carries them if they are within what it takes;
and no operation of any block that the chain would accept is refused for a reason of the chain, but for
the sale whose payment is not on the chain yet. -/
theorem front_door {D : Block P → Prop} (hD : DistinctHashes D) (hs : Reachable D s)
    (serializedSize : Transaction P → Option UInt64) (calls : List (Mempool.PoolCall P)) :
    let m := Mempool.run serializedSize calls
    ((∀ op, (transferLane P).Settles s m op (handleTransferName s op m)) ∧
        (∀ op, (transferAssetLane P).Settles s m op (handleTransferAsset s op m)) ∧
          ∀ op, (launchLane P).Settles s m op (handleLaunchCollection s op m)) ∧
      ∀ b c, s.checkBlock b = some c →
        (∀ op ∈ b.nameOps, LeftToQueue m (.newNameOp op) (handleRegisterName s op m)) ∧
          (∀ op ∈ b.transferOps, LeftToQueue m (.newTransferOp op) (handleTransferName s op m)) ∧
          (∀ op ∈ b.mintOps, LeftToQueue m (.newMintOp op) (handleMintAsset s op m)) ∧
          (∀ op ∈ b.launchCollectionOps,
            LeftToQueue m (.newLaunchCollectionOp op) (handleLaunchCollection s op m)) ∧
          ∀ op ∈ b.transferAssetOps,
            LeftToQueue m (.newTransferAssetOp op) (handleTransferAsset s op m) ∨
              ∃ text, handleTransferAsset s op m = (.error 409 text, m) := by
  intro m
  have hm : m.Orderly := Mempool.orderly_run serializedSize calls
  have hadmitted : m.Admitted := Mempool.admitted_run serializedSize calls
  obtain ⟨chain, -, hlayered⟩ := hs.layered hD
  refine ⟨⟨handleTransferName_settles hm hadmitted,
    handleTransferAsset_settles hm hadmitted hlayered.quota.launched,
    handleLaunchCollection_settles hm hadmitted⟩, ?_⟩
  intro b c hcheck
  have hacc := accepted_of_checkBlock hcheck
  obtain ⟨hnames, hmints, hlaunches⟩ := valid_of_checkBlock hcheck
  refine ⟨fun op hop => ?_, fun op hop => handleTransferName_left hcheck hop, fun op hop => ?_,
    fun op hop => ?_, fun op hop => handleTransferAsset_left hcheck hop⟩
  · exact handleNew_left (hnames op hop)
      (decide_eq_false (hacc.names.absent op.name (List.mem_map_of_mem hop)))
  · exact handleNew_left (hmints op hop)
      (decide_eq_false (hacc.assets.absent op.assetId (List.mem_map_of_mem hop)))
  · exact handleNew_left (hlaunches op hop)
      (decide_eq_false (hacc.collections op.collectionId (List.mem_map_of_mem hop)))

end Refused

namespace Devnet

open ChainState

/-- The handover of a name on the chain is queued, and the next block carries it. -/
theorem handover_settles :
    (handleTransferName (linear [genesis, nameBlock]) handover (Mempool.run serializedSize [])).1 = .queued ∧
      (transferLane crypto).Settles (linear [genesis, nameBlock]) (Mempool.run serializedSize []) handover
        (handleTransferName (linear [genesis, nameBlock]) handover (Mempool.run serializedSize [])) := by
  have hrun : (zeroHash :: [genesis, nameBlock].map Block.hash).Nodup ∧
      (applyAll [genesis, nameBlock] ChainState.new).isSome = true ∧
      (handleTransferName (linear [genesis, nameBlock]) handover (Mempool.run serializedSize [])).1 =
        .queued := by
    decide +kernel
  obtain ⟨hnodup, hreach, hqueued⟩ := hrun
  exact ⟨hqueued, (front_door (distinctHashes_of_nodup hnodup)
    (reachable_linear (fun b hb => hb) rfl hreach) serializedSize []).1.1 handover⟩

end Devnet

end Haze
