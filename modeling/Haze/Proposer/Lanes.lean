import Haze.Lib.Fifo
import Haze.P2p.Blocks
import Haze.P2p.Ops
import Haze.Mempool.Selection
import Haze.Storage.Validators

/-!
# Operations that wait their turn (`core/src/mempool.rs`, `core/src/proposer.rs`)

Registrations and mints pay, and a block takes those that pay best. Transfers of names and of assets,
launches and stakes pay nothing: each of their queues is taken from the front, ten, ten, five and twenty
at a time, and is a *lane* here. An operation in a lane is never overtaken, so the rounds of this node
alone bound how long it waits, whatever clients and peers send in the meantime.

When its round comes, the proposer's filter looks at the operation and the state of the chain. Nothing
else that is pending can keep an operation of a lane out of the block, free seats for stakes apart; what
the chain says after the block is what the operation asked for (`judged_of_mem`).
-/

namespace Haze

open Checked

variable {P : Crypto}

/-! ## Lanes

Four queues that are taken from the front. What differs from one to the other is in this record: what the
operations are about, how many a block takes, when a round has a place for one and what the chain says
afterwards. -/

/-- A queue of the mempool that blocks take from the front. -/
structure Lane (P : Crypto) where
  Op : Type
  key : Op → OpKey P
  /-- How many a block takes. -/
  cap : ℕ
  pending : Mempool P → List Op
  inBlock : Block P → List Op
  /-- What a block from a peer makes stale. -/
  touched : Block P → List (OpKey P)
  /-- The round on top of `s` that drains `m` into `b` has a place for the operation. -/
  fits (s : ChainState P) (m : Mempool P) (b : Block P) (op : Op) : Prop
  /-- `s'` is `s` after the block `b`, and says what the operation asked for. -/
  written (s : ChainState P) (b : Block P) (s' : ChainState P) (op : Op) : Prop

/-- The kernels that the round takes for those of its block. -/
def Proposer.broughtExcesses (m : Mempool P) (b : Block P) : List (Commitment P) :=
  candidateKernelExcesses (drain m).1.tx b.mintOps b.nameOps

/-- `pending_transfer_ops`. -/
def transferLane (P : Crypto) : Lane P where
  Op := TransferNameOp P
  key op := .nameTransfer op.name
  cap := maxTransferOpsPerBlock
  pending := Mempool.pendingTransferOps
  inBlock := Block.transferOps
  touched b := b.nameOps.map (fun op => .nameTransfer op.name) ++
    b.transferOps.map fun op => .nameTransfer op.name
  fits s _ _ op := ∃ current, s.nameRegistry.lookup op.name = some current ∧
    op.signedBy current.ownerPubkey = true
  written s _ s' op := ∃ current, s.nameRegistry.lookup op.name = some current ∧
    s'.nameRegistry.lookup op.name = some (op.record current)

/-- `pending_transfer_asset_ops`. A sale waits for its payment, which may be in the block itself. -/
def transferAssetLane (P : Crypto) : Lane P where
  Op := TransferAssetOp P
  key op := .assetTransfer op.assetId
  cap := maxTransferAssetOpsPerBlock
  pending := Mempool.pendingTransferAssetOps
  inBlock := Block.transferAssetOps
  touched b := b.mintOps.map (fun op => .assetTransfer op.assetId) ++
    b.transferAssetOps.map fun op => .assetTransfer op.assetId
  fits s m b op := ∃ current, s.assetRegistry.lookup op.assetId = some current ∧
    op.signedBy current.ownerPubkey = true ∧
    (∀ c ∈ op.requiredKernelExcess, c ∈ s.kernelExcesses ∨ c ∈ Proposer.broughtExcesses m b) ∧
    Proposer.royaltyOk s (Proposer.broughtExcesses m b) (s.collectionsAfter b) current op = true
  written s _ s' op := ∃ current, s.assetRegistry.lookup op.assetId = some current ∧
    s'.assetRegistry.lookup op.assetId = some (op.record current)

/-- `pending_launch_collection_ops`. -/
def launchLane (P : Crypto) : Lane P where
  Op := LaunchCollectionOp P
  key op := .collection op.collectionId
  cap := maxLaunchOpsPerBlock
  pending := Mempool.pendingLaunchCollectionOps
  inBlock := Block.launchCollectionOps
  touched b := b.launchCollectionOps.map fun op => .collection op.collectionId
  fits s _ _ op := op.collectionId ∉ s.collectionRegistry
  written _ b s' op := s'.collectionRegistry.lookup op.collectionId = some (op.record b.height)

/-- `pending_validator_ops`. The stakes that the block registers before it have taken their seats, and a
stake that the block's body spends is unseated at once. -/
def stakeLane (P : Crypto) : Lane P where
  Op := RegisterValidatorOp P
  key op := .stake op.commitment
  cap := maxValidatorOpsPerBlock
  pending := Mempool.pendingValidatorOps
  inBlock := Block.validatorOps
  touched b := b.validatorOps.map fun op => .stake op.commitment
  fits s _ b op := op.commitment ∈ s.utxos ∧ admitsValidator (registerAll s.activeValidators
    (b.validatorOps.takeWhile fun o => o.commitment ≠ op.commitment)) op = true
  written _ b s' op := op.commitment ∉ b.bodySpent →
    ⟨op.commitment, op.value, op.proof⟩ ∈ s'.activeValidators

def lanes (P : Crypto) : List (Lane P) :=
  [transferLane P, transferAssetLane P, launchLane P, stakeLane P]

/-! ## What a lane keeps to

The operations of the mempool leave the order of a lane as it is. Rounds take from its front, and blocks
from peers take out what they have settled. -/

namespace Lane

variable (L : Lane P)

/-- How the queue moves. -/
structure Moves : Prop where
  added : ∀ {m m' : Mempool P} {op : OpMessage P}, m.addOp op = some m' →
    ∃ joined, L.pending m' = L.pending m ++ joined
  transaction : ∀ {serializedSize : Transaction P → Option UInt64} {m : Mempool P} {tx : Transaction P},
    L.pending ((m.addTransaction serializedSize tx).getD m) = L.pending m
  drained : ∀ m : Mempool P, L.pending (Proposer.drain m).2 = (L.pending m).drop L.cap
  cleared : ∀ (m : Mempool P) (b : Block P), L.pending (m.clearAfter b) =
    (L.pending m).filter fun op => decide (L.key op ∉ L.touched b)
  distinct : ∀ {m : Mempool P}, m.Orderly → ((L.pending m).map L.key).Nodup

end Lane

theorem nodup_keys {α κ : Type} {key : α → κ} (tag : κ → OpKey P) {queue : List α}
    (htag : Function.Injective tag) (h : (queue.map key).Nodup) :
    (queue.map fun x => tag (key x)).Nodup := by
  have hmap := h.map htag
  rwa [List.map_map] at hmap

/-- A lane is only ever lengthened at its end, thinned out, and taken from the front. -/
theorem moves_of_mem {L : Lane P} (hL : L ∈ lanes P) : L.Moves := by
  have hadd : ∀ {m m' : Mempool P} {op : OpMessage P}, m.addOp op = some m' → ∀ L ∈ lanes P,
      ∃ joined, L.pending m' = L.pending m ++ joined := by
    intro m m' op h
    simp only [lanes, List.forall_mem_cons]
    cases op
    all_goals
      obtain ⟨queue, hq, rfl⟩ := Option.map_eq_some_iff.mp h
      obtain ⟨-, rfl⟩ := Queue.add_eq_some.mp hq
      refine ⟨?_, ?_, ?_, ?_, List.forall_mem_nil _⟩
      all_goals first | exact ⟨[], (List.append_nil _).symm⟩ | exact ⟨[_], rfl⟩
  have htransaction : ∀ {serializedSize : Transaction P → Option UInt64} {m : Mempool P}
      {tx : Transaction P}, ∀ L ∈ lanes P,
        L.pending ((m.addTransaction serializedSize tx).getD m) = L.pending m := by
    intro serializedSize m tx
    unfold Mempool.addTransaction
    simp only [lanes, List.forall_mem_cons]
    refine ⟨?_, ?_, ?_, ?_, List.forall_mem_nil _⟩
    all_goals split_ifs <;> rfl
  refine ⟨fun h => hadd h L hL, htransaction L hL, ?_, ?_, ?_⟩
  · intro m
    rw [Proposer.drain_eq]
    simp only [lanes, List.mem_cons, List.not_mem_nil, or_false] at hL
    rcases hL with rfl | rfl | rfl | rfl <;> rfl
  · intro m b
    simp only [lanes, List.mem_cons, List.not_mem_nil, or_false] at hL
    rcases hL with rfl | rfl | rfl | rfl
    all_goals
      refine List.filter_congr fun op _ => ?_
      simp [transferLane, transferAssetLane, launchLane, stakeLane]
  · intro m h
    simp only [lanes, List.mem_cons, List.not_mem_nil, or_false] at hL
    rcases hL with rfl | rfl | rfl | rfl
    · exact nodup_keys .nameTransfer (fun _ _ => OpKey.nameTransfer.inj) h.transferOps.distinct
    · exact nodup_keys .assetTransfer (fun _ _ => OpKey.assetTransfer.inj)
        h.transferAssetOps.distinct
    · exact nodup_keys .collection (fun _ _ => OpKey.collection.inj) h.launchOps.distinct
    · exact nodup_keys .stake (fun _ _ => OpKey.stake.inj) h.validatorOps.distinct

/-! ## What a round takes from a lane

A loop keeps an operation depending on what it has kept before. For the operations of a lane that dependence
is on other names, other assets or other collections only, and so comes to nothing. -/

namespace Proposer

section Kept

variable {α κ σ : Type} {sel : σ → α → σ} {keeps : σ → α → Bool} {kept : σ → List α} {i : σ}

/-- An element that the loop treats alike behind all that can stand before it. -/
theorem mem_kept_iff_fits (h : Selects sel keeps kept) (hinit : kept i = []) {key : α → κ} {xs : List α}
    (hnodup : (xs.map key).Nodup) {x : α} (hx : x ∈ xs) {fits : Prop}
    (hfits : ∀ done : List α, key x ∉ done.map key → (keeps (done.foldl sel i) x = true ↔ fits)) :
    x ∈ kept (xs.foldl sel i) ↔ fits := by
  have hsplit : ∀ done rest : List α, xs = done ++ x :: rest → key x ∉ done.map key := by
    rintro done rest rfl hmem
    rw [List.map_append, List.map_cons] at hnodup
    exact (List.nodup_append.mp hnodup).2.2 _ hmem _ List.mem_cons_self rfl
  rw [h.mem_kept_iff hinit]
  constructor
  · rintro ⟨done, rest, hxs, hkeep⟩
    exact (hfits done (hsplit done rest hxs)).mp hkeep
  · intro hfit
    obtain ⟨done, rest, hxs⟩ := List.append_of_mem hx
    exact ⟨done, rest, hxs, (hfits done (hsplit done rest hxs)).mpr hfit⟩

/-- From wherever it starts, the loop collects some of the candidates, in their order. -/
theorem exists_kept (h : Selects sel keeps kept) (t : σ) (xs : List α) :
    ∃ ys, ys.Sublist xs ∧ kept (xs.foldl sel t) = kept t ++ ys := by
  induction xs generalizing t with
  | nil => exact ⟨[], List.Sublist.refl _, (List.append_nil _).symm⟩
  | cons x xs ih =>
      obtain ⟨ys, hsub, heq⟩ := ih (sel t x)
      rw [List.foldl_cons, heq]
      cases hkeep : keeps t x with
      | true =>
          rw [h.keep t x hkeep]
          exact ⟨x :: ys, hsub.cons_cons x, by rw [List.append_assoc, List.singleton_append]⟩
      | false =>
          rw [h.skip t x hkeep]
          exact ⟨ys, hsub.cons x, rfl⟩

/-- What is collected before an element, at it and behind it. -/
theorem kept_split (h : Selects sel keeps kept) (hinit : kept i = []) (done rest : List α) (x : α) :
    (kept (done.foldl sel i)).Sublist done ∧ ∃ more, more.Sublist rest ∧
      kept ((done ++ x :: rest).foldl sel i) = kept (sel (done.foldl sel i) x) ++ more := by
  obtain ⟨before, hbefore, heq⟩ := exists_kept h i done
  rw [hinit, List.nil_append] at heq
  rw [heq, List.foldl_append, List.foldl_cons]
  exact ⟨hbefore, exists_kept h _ rest⟩

end Kept

variable {e : Env P} {s : ChainState P} {m : Mempool P} {validator : Validator P}

/-- A round registers new names only. -/
theorem new_of_mem_nameOps {tx : Transaction P} {ops : List (RegisterNameOp P)} {op : RegisterNameOp P}
    (hop : op ∈ (selectNameOps s tx ops).nameOps) : op.name ∉ s.nameRegistry := by
  have hinv : (∀ k ∈ s.nameRegistry, k ∈ (selectNameOps s tx ops).registry) ∧
      ∀ op ∈ (selectNameOps s tx ops).nameOps, op.name ∉ s.nameRegistry := by
    refine foldl_induct (motive := fun acc : NameSelection P => (∀ k ∈ s.nameRegistry, k ∈ acc.registry) ∧
      ∀ op ∈ acc.nameOps, op.name ∉ s.nameRegistry) ⟨fun _ hk => hk, List.forall_mem_nil _⟩ ?_ ops
    rintro acc op ⟨hold, hnew⟩
    unfold selectNameOp
    split
    · exact ⟨hold, hnew⟩
    next hkeep =>
      have hname : op.name ∉ acc.registry := by
        simp only [keepsNameOp, Bool.not_eq_true', Bool.not_eq_false, Bool.and_eq_true] at hkeep
        exact of_decide_eq_true hkeep.2
      refine ⟨fun k hk => Finmap.mem_insert.mpr (.inr (hold k hk)), ?_⟩
      rw [List.forall_mem_append, List.forall_mem_singleton]
      exact ⟨hnew, fun hmem => hname (hold _ hmem)⟩
  exact hinv.2 op hop

/-- It mints new assets only. -/
theorem new_of_mem_mintOps {tx : Transaction P} {collections : KeyedMap String (CollectionRecord P)}
    {spent : Finset (Commitment P)} {ops : List (MintAssetOp P)} {op : MintAssetOp P}
    (hop : op ∈ (selectMintOps e s tx collections spent ops).mintOps) : op.assetId ∉ s.assetRegistry := by
  have hinv : (∀ k ∈ s.assetRegistry, k ∈ (selectMintOps e s tx collections spent ops).registry) ∧
      ∀ op ∈ (selectMintOps e s tx collections spent ops).mintOps, op.assetId ∉ s.assetRegistry := by
    refine foldl_induct (motive := fun acc : MintSelection P =>
      (∀ k ∈ s.assetRegistry, k ∈ acc.registry) ∧ ∀ op ∈ acc.mintOps, op.assetId ∉ s.assetRegistry)
      ⟨fun _ hk => hk, List.forall_mem_nil _⟩ ?_ ops
    rintro acc op ⟨hold, hnew⟩
    unfold selectMintOp
    split
    · exact ⟨hold, hnew⟩
    next counts hkeep =>
      have hid : op.assetId ∉ acc.registry := by
        intro hmem
        simp [keepsMintOp, hmem] at hkeep
      refine ⟨fun k hk => Finmap.mem_insert.mpr (.inr (hold k hk)), ?_⟩
      rw [List.forall_mem_append, List.forall_mem_singleton]
      exact ⟨hnew, fun hmem => hid (hold _ hmem)⟩
  exact hinv.2 op hop

/-- What stands in the way of a transfer is a registration or another transfer of the name. -/
theorem mem_namesTouched {named : NameSelection P} {ops : List (TransferNameOp P)} {k : String}
    (hk : k ∈ (selectTransferOps s named ops).namesTouched) :
    k ∈ named.nameOps.map RegisterNameOp.name ∨ k ∈ ops.map TransferNameOp.name := by
  induction ops using List.reverseRecOn with
  | nil => exact .inl (List.mem_toFinset.mp hk)
  | append_singleton ops op ih =>
      rw [selectTransferOps, List.foldl_append] at hk
      change k ∈ (selectTransferOp s (selectTransferOps s named ops) op).namesTouched at hk
      rw [List.map_append, List.mem_append, ← or_assoc]
      unfold selectTransferOp at hk
      split at hk
      · exact .inl (ih hk)
      · rcases Finset.mem_insert.mp hk with rfl | hk
        · exact .inr List.mem_cons_self
        · exact .inl (ih hk)

theorem mem_assetsTouched {excesses : List (Commitment P)}
    {collections : KeyedMap String (CollectionRecord P)} {minted : MintSelection P}
    {ops : List (TransferAssetOp P)} {k : String}
    (hk : k ∈ (selectTransferAssetOps s excesses collections minted ops).assetsTouched) :
    k ∈ minted.mintOps.map MintAssetOp.assetId ∨ k ∈ ops.map TransferAssetOp.assetId := by
  induction ops using List.reverseRecOn with
  | nil => exact .inl (List.mem_toFinset.mp hk)
  | append_singleton ops op ih =>
      rw [selectTransferAssetOps, List.foldl_append] at hk
      change k ∈ (selectTransferAssetOp s excesses collections
        (selectTransferAssetOps s excesses collections minted ops) op).assetsTouched at hk
      rw [List.map_append, List.mem_append, ← or_assoc]
      unfold selectTransferAssetOp at hk
      split at hk
      · exact .inl (ih hk)
      · rcases Finset.mem_insert.mp hk with rfl | hk
        · exact .inr List.mem_cons_self
        · exact .inl (ih hk)

theorem nodup_take {α κ : Type} {key : α → κ} {queue : List α} (h : (queue.map key).Nodup) (n : ℕ) :
    ((queue.take n).map key).Nodup := by
  rw [List.map_take]
  exact h.sublist (List.take_sublist _ _)

variable (e s) (validator)

/-- A transfer that comes up is in the block exactly if the owner of the name has signed it. -/
theorem transferLane_fits (hm : m.Orderly) {op : TransferNameOp P}
    (hop : op ∈ m.pendingTransferOps.take maxTransferOpsPerBlock) :
    op ∈ (assembleBlock e s (drain m).1 validator).transferOps ↔
      (transferLane P).fits s m (assembleBlock e s (drain m).1 validator) op := by
  have hdrain : (drain m).1.transferOps = m.pendingTransferOps.take maxTransferOpsPerBlock := by
    rw [drain_eq]
  show op ∈ (selectTransferOps s (keptNames s (drain m).1) (drain m).1.transferOps).transferOps ↔ _
  rw [hdrain]
  refine mem_kept_iff_fits (selects_transferOp (s := s)) rfl (nodup_take hm.transferOps.distinct _) hop ?_
  intro done hdone
  simp only [keepsTransferOp, Option.bind_eq_bind, Option.isSome_iff_exists, Option.bind_eq_some_iff,
    ensure_eq_some, exists_const, Option.pure_def, Option.some.injEq, decide_eq_true_eq]
  constructor
  · rintro ⟨_, -, current, hlookup, hsigned, -⟩
    exact ⟨current, hlookup, hsigned⟩
  · rintro ⟨current, hlookup, hsigned⟩
    refine ⟨current, ?_, current, hlookup, hsigned, rfl⟩
    intro htouched
    rcases mem_namesTouched htouched with hname | hname
    · obtain ⟨reg, hreg, hsame⟩ := List.mem_map.mp hname
      exact new_of_mem_nameOps hreg (hsame ▸ Finmap.mem_of_lookup_eq_some hlookup)
    · exact hdone hname

/-- A transfer of an asset that comes up is in the block exactly if its owner has signed it and what it is
paid with is on the chain or in the block. -/
theorem transferAssetLane_fits (hm : m.Orderly) {op : TransferAssetOp P}
    (hop : op ∈ m.pendingTransferAssetOps.take maxTransferAssetOpsPerBlock) :
    op ∈ (assembleBlock e s (drain m).1 validator).transferAssetOps ↔
      (transferAssetLane P).fits s m (assembleBlock e s (drain m).1 validator) op := by
  have hdrain : (drain m).1.transferAssetOps =
      m.pendingTransferAssetOps.take maxTransferAssetOpsPerBlock := by
    rw [drain_eq]
  have hcollections : s.collectionsAfter (assembleBlock e s (drain m).1 validator) =
      (selectLaunchOps s (drain m).1.launchOps).registry := (registry_selectLaunchOps _ _).symm
  show op ∈ (selectTransferAssetOps s (broughtExcesses m (assembleBlock e s (drain m).1 validator))
    (selectLaunchOps s (drain m).1.launchOps).registry (mintsAfter e s (drain m).1 (drain m).1.mintOps)
    (drain m).1.transferAssetOps).transferAssetOps ↔ _
  rw [hdrain, ← hcollections]
  refine mem_kept_iff_fits (selects_transferAssetOp (s := s)) rfl (nodup_take hm.transferAssetOps.distinct _)
    hop ?_
  intro done hdone
  simp only [keepsTransferAssetOp, Option.bind_eq_bind, Option.isSome_iff_exists,
    Option.bind_eq_some_iff, ensure_eq_some, exists_const, Option.pure_def, Option.some.injEq,
    decide_eq_true_eq, Option.all_eq_true, Bool.or_eq_true]
  constructor
  · rintro ⟨_, -, current, hlookup, hsigned, hpaid, hroyalty, -⟩
    exact ⟨current, hlookup, hsigned, hpaid, hroyalty⟩
  · rintro ⟨current, hlookup, hsigned, hpaid, hroyalty⟩
    refine ⟨current, ?_, current, hlookup, hsigned, hpaid, hroyalty, rfl⟩
    intro htouched
    rcases mem_assetsTouched htouched with hid | hid
    · obtain ⟨mint, hmint, hsame⟩ := List.mem_map.mp hid
      exact new_of_mem_mintOps hmint (hsame ▸ Finmap.mem_of_lookup_eq_some hlookup)
    · exact hdone hid

/-- What the loop over launches knows is the registry and the launches before. -/
theorem mem_registry_selectLaunchOps (ops : List (LaunchCollectionOp P)) (k : String) :
    (k ∈ s.collectionRegistry → k ∈ (selectLaunchOps s ops).registry) ∧
      (k ∈ (selectLaunchOps s ops).registry →
        k ∈ s.collectionRegistry ∨ k ∈ ops.map LaunchCollectionOp.collectionId) := by
  induction ops using List.reverseRecOn with
  | nil => exact ⟨id, .inl⟩
  | append_singleton ops op ih =>
      rw [selectLaunchOps, List.foldl_append]
      change (_ → k ∈ (selectLaunchOp s (selectLaunchOps s ops) op).registry) ∧
        (k ∈ (selectLaunchOp s (selectLaunchOps s ops) op).registry → _)
      rw [List.map_append, List.mem_append, ← or_assoc]
      unfold selectLaunchOp
      split
      · exact ⟨ih.1, fun hk => .inl (ih.2 hk)⟩
      · refine ⟨fun hk => Finmap.mem_insert.mpr (.inr (ih.1 hk)), fun hk => ?_⟩
        rcases Finmap.mem_insert.mp hk with rfl | hk
        · exact .inr List.mem_cons_self
        · exact .inl (ih.2 hk)

/-- A launch that comes up is in the block exactly if its collection is new. -/
theorem launchLane_fits (hm : m.Orderly) (hadmitted : m.Admitted) {op : LaunchCollectionOp P}
    (hop : op ∈ m.pendingLaunchCollectionOps.take maxLaunchOpsPerBlock) :
    op ∈ (assembleBlock e s (drain m).1 validator).launchCollectionOps ↔
      (launchLane P).fits s m (assembleBlock e s (drain m).1 validator) op := by
  have hdrain : (drain m).1.launchOps = m.pendingLaunchCollectionOps.take maxLaunchOpsPerBlock := by
    rw [drain_eq]
  show op ∈ (selectLaunchOps s (drain m).1.launchOps).launchCollectionOps ↔ _
  rw [hdrain]
  refine mem_kept_iff_fits (selects_launchOp (s := s)) rfl (nodup_take hm.launchOps.distinct _) hop ?_
  intro done hdone
  have hvalid := hadmitted.launchOps op (List.mem_of_mem_take hop)
  obtain ⟨hold, hknown⟩ := mem_registry_selectLaunchOps s done op.collectionId
  simp only [keepsLaunchOp, hvalid, Bool.true_and, decide_eq_true_eq]
  constructor
  · exact fun hnew hmem => hnew (hold hmem)
  · intro hnew hmem
    exact (hknown hmem).elim hnew hdone

/-! ### Stakes -/

theorem find?_upsertValidator_of_ne {validators : List (Validator P)} {entry : Validator P}
    {c : Commitment P} (hne : entry.commitment ≠ c) :
    (upsertValidator validators entry).find? (fun v => v.commitment == c) =
      validators.find? fun v => v.commitment == c := by
  induction validators with
  | nil => simp [upsertValidator_nil, hne]
  | cons v validators ih =>
      rw [upsertValidator_cons]
      split
      next heq => simp [heq, hne]
      next => rw [List.find?_cons, ih, List.find?_cons]

theorem length_le_upsertValidator (validators : List (Validator P)) (entry : Validator P) :
    validators.length ≤ (upsertValidator validators entry).length := by
  induction validators with
  | nil => exact Nat.zero_le _
  | cons v validators ih =>
      rw [upsertValidator_cons]
      split
      · exact Nat.le_refl _
      · exact Nat.succ_le_succ ih

/-- The seats only fill up: what is admitted behind other stakes would be admitted before them. -/
theorem admits_of_registerAll {validators : List (Validator P)} {ops : List (RegisterValidatorOp P)}
    {op : RegisterValidatorOp P} (hne : ∀ o ∈ ops, o.commitment ≠ op.commitment)
    (h : admitsValidator (registerAll validators ops) op = true) :
    admitsValidator validators op = true := by
  induction ops generalizing validators with
  | nil => exact h
  | cons o ops ih =>
      obtain ⟨hfirst, hrest⟩ := List.forall_mem_cons.mp hne
      have hone : admitsValidator (upsertValidator validators ⟨o.commitment, o.value, o.proof⟩) op =
          true := ih hrest h
      have hlength := length_le_upsertValidator validators ⟨o.commitment, o.value, o.proof⟩
      unfold admitsValidator at hone ⊢
      rw [find?_upsertValidator_of_ne hfirst] at hone
      split at hone
      next hnone =>
        exact decide_eq_true (Nat.lt_of_le_of_lt hlength (of_decide_eq_true hone))
      next v hsome => exact hone

/-- The loop over stakes has seated those it has kept. -/
theorem validators_selectValidatorOps (ops : List (RegisterValidatorOp P)) :
    (selectValidatorOps s ops).validators =
      registerAll s.activeValidators (selectValidatorOps s ops).validatorOps := by
  refine foldl_induct (motive := fun acc : ValidatorSelection P =>
    acc.validators = registerAll s.activeValidators acc.validatorOps) rfl ?_ ops
  intro acc op ih
  unfold selectValidatorOp
  split
  next validators htry =>
    obtain ⟨-, -, -, rfl⟩ := tryRegisterValidator_eq_some_iff.mp htry
    rw [registerAll, List.foldl_append, ih]
    rfl
  next => exact ih

/-- A stake that comes up is in the block exactly if it is a coin of the chain and, behind the stakes that
the block registers before it, finds a seat or changes its own. -/
theorem stakeLane_fits (hm : m.Orderly) (hadmitted : m.Admitted) {op : RegisterValidatorOp P}
    (hop : op ∈ m.pendingValidatorOps.take maxValidatorOpsPerBlock) :
    op ∈ (assembleBlock e s (drain m).1 validator).validatorOps ↔
      (stakeLane P).fits s m (assembleBlock e s (drain m).1 validator) op := by
  have hdrain : (drain m).1.validatorOps = m.pendingValidatorOps.take maxValidatorOpsPerBlock := by
    rw [drain_eq]
  have hnodup := nodup_take hm.validatorOps.distinct maxValidatorOpsPerBlock
  have hvalid := hadmitted.validatorOps op (List.mem_of_mem_take hop)
  obtain ⟨done, rest, hsplit⟩ := List.append_of_mem hop
  rw [hsplit, List.map_append, List.map_cons, List.nodup_append, List.nodup_cons] at hnodup
  obtain ⟨-, ⟨hrest, -⟩, hapart⟩ := hnodup
  have hne : ∀ o ∈ done, o.commitment ≠ op.commitment := fun o ho =>
    hapart _ (List.mem_map_of_mem ho) _ List.mem_cons_self
  have hne' : ∀ o ∈ rest, o.commitment ≠ op.commitment := fun o ho heq =>
    hrest (heq ▸ List.mem_map_of_mem ho)
  set acc := selectValidatorOps s done with hacc
  obtain ⟨hkept, more, hmore, hall⟩ :=
    kept_split (selects_validatorOp (s := s)) (i := ⟨s.activeValidators, []⟩)
    rfl done rest op
  have hbefore : ∀ o ∈ acc.validatorOps, o.commitment ≠ op.commitment :=
    fun o ho => hne o (hkept.subset ho)
  have hafter : ∀ o ∈ more, o.commitment ≠ op.commitment := fun o ho => hne' o (hmore.subset ho)
  have hblock : (assembleBlock e s (drain m).1 validator).validatorOps =
      (selectValidatorOp s acc op).validatorOps ++ more := by
    show (selectValidatorOps s (drain m).1.validatorOps).validatorOps = _
    rw [hdrain, hsplit]
    exact hall
  have hseated := validators_selectValidatorOps s done
  show op ∈ _ ↔ op.commitment ∈ s.utxos ∧ admitsValidator (registerAll s.activeValidators
    ((assembleBlock e s (drain m).1 validator).validatorOps.takeWhile
      fun o => decide (o.commitment ≠ op.commitment))) op = true
  -- the loop stands before the operation, with the stakes that were registered so far
  rw [hblock]
  -- kept or not, what follows in the block has other commitments
  cases htry : tryRegisterValidator acc.validators s.utxos op with
  | some validators =>
      obtain ⟨-, hcoin, hadmits, -⟩ := tryRegisterValidator_eq_some_iff.mp htry
      have hsel : (selectValidatorOp s acc op).validatorOps = acc.validatorOps ++ [op] := by
        simp [selectValidatorOp, htry]
      have htake : (acc.validatorOps ++ [op] ++ more).takeWhile
          (fun o => decide (o.commitment ≠ op.commitment)) = acc.validatorOps := by
        rw [List.append_assoc, List.takeWhile_append_of_pos (by simpa using hbefore)]
        simp
      rw [hsel, htake, ← hseated]
      exact iff_of_true (by simp) ⟨hcoin, hadmits⟩
  | none =>
      have hsel : selectValidatorOp s acc op = acc := by simp [selectValidatorOp, htry]
      have htake : (acc.validatorOps ++ more).takeWhile
          (fun o => decide (o.commitment ≠ op.commitment)) = acc.validatorOps ++ more := by
        rw [List.takeWhile_eq_self_iff]
        intro o ho
        rcases List.mem_append.mp ho with ho | ho
        · exact decide_eq_true (hbefore o ho)
        · exact decide_eq_true (hafter o ho)
      rw [hsel, htake]
      refine iff_of_false ?_ ?_
      · intro hmem
        rcases List.mem_append.mp hmem with hmem | hmem
        · exact hbefore op hmem rfl
        · exact hafter op hmem rfl
      · rintro ⟨hcoin, hadmits⟩
        rw [registerAll, List.foldl_append] at hadmits
        change admitsValidator (registerAll (registerAll s.activeValidators acc.validatorOps) more) op = true
          at hadmits
        rw [← hseated] at hadmits
        have hsome := tryRegisterValidator_eq_some_iff.mpr
          ⟨hvalid, hcoin, admits_of_registerAll hafter hadmits, rfl⟩
        rw [htry] at hsome
        cases hsome

/-! ## What the chain says afterwards

From the block to the registries. A block of the proposer that is applied is applied on top of the tip. -/

variable {e s validator}

/-- A block of the proposer that is applied extends the tip. -/
theorem exists_candidate {d : Drained P}
    (h : (s.applyBlock (assembleBlock e s d validator)).2.isApplied = true) :
    let b := assembleBlock e s d validator
    ∃ c, (s.storeBlock b).checkBlock b = some c ∧
      (s.applyBlock b).1 = ((s.storeBlock b).commitBlock b c).1 := by
  intro b
  have houtcome := ChainState.outcome_applyBlock s b
  change (s.applyBlock b).2.isApplied = true at h
  generalize s.applyBlock b = r at houtcome h ⊢
  cases houtcome with
  | invalid _ => cases h
  | refused _ => cases h
  | linear _ happly =>
      obtain ⟨c, hcheck, hcommit⟩ := ChainState.applyLinearBlock_eq_some_iff.mp happly
      exact ⟨c, hcheck, by rw [hcommit]⟩
  | reorg hheight hplan _ _ _ =>
      -- a height above the tip's has not wrapped, so the block is linear
      have hgt : s.currentHeight < s.currentHeight + 1 := hheight
      have hnext : (nextHeight s).toNat = s.currentHeight.toNat + 1 := by
        show (s.currentHeight + 1).toNat = s.currentHeight.toNat + 1
        rw [UInt64.lt_iff_toNat_lt] at hgt
        rw [UInt64.toNat_add] at hgt ⊢
        have hlt := s.currentHeight.toNat_lt
        simp only [UInt64.reduceToNat] at hgt ⊢
        omega
      have hlin : s.isLinear b = true := isLinear_assembleBlock hnext _ _
      simp [ChainState.reorgOf, ensure, hlin] at hplan

section Written

open ChainState

variable {b : Block P} {c : Candidate P}

theorem transferLane_written (h : s.checkBlock b = some c) {op : TransferNameOp P}
    (hop : op ∈ b.transferOps) : (transferLane P).written s b (s.commitBlock b c).1 op := by
  have hrec := recorded_of_checkBlock h
  obtain ⟨seen, hnames⟩ := hrec.names
  obtain ⟨current, hlookup, -, hwritten⟩ := hnames.transferred op hop
  refine ⟨current, hlookup, ?_⟩
  rw [hrec.nameRegistry_eq]
  exact hwritten

theorem transferAssetLane_written (h : s.checkBlock b = some c) {op : TransferAssetOp P}
    (hop : op ∈ b.transferAssetOps) : (transferAssetLane P).written s b (s.commitBlock b c).1 op := by
  have hrec := recorded_of_checkBlock h
  obtain ⟨seen, hassets⟩ := hrec.assets
  obtain ⟨current, hlookup, -, -, -, hwritten⟩ := hassets.transferred op hop
  refine ⟨current, hlookup, ?_⟩
  rw [hrec.assetRegistry_eq]
  exact hwritten

theorem launchLane_written (h : s.checkBlock b = some c) {op : LaunchCollectionOp P}
    (hop : op ∈ b.launchCollectionOps) : (launchLane P).written s b (s.commitBlock b c).1 op := by
  have hrec := recorded_of_checkBlock h
  obtain ⟨seen, hcollections⟩ := hrec.collections
  show (s.commitBlock b c).1.collectionRegistry.lookup op.collectionId = _
  have hinsert : s.collectionsAfter b = KeyedMap.insertAll s.collectionRegistry
      (b.launchCollectionOps.map fun op => (op.collectionId, op.record b.height)) := by
    rw [KeyedMap.insertAll, List.foldl_map]
    rfl
  rw [hrec.collectionRegistry_eq, (folded_of_checkBlock h).collections, hinsert]
  apply KeyedMap.lookup_insertAll_of_mem
  · rw [List.map_map]
    exact hcollections.nodup
  · exact List.mem_map_of_mem (f := fun op => (op.collectionId, op.record b.height)) hop

theorem mem_upsertValidator_self (validators : List (Validator P)) (entry : Validator P) :
    entry ∈ upsertValidator validators entry := by
  induction validators with
  | nil => exact List.mem_singleton_self entry
  | cons v validators ih =>
      rw [upsertValidator_cons]
      split
      · exact List.mem_cons_self
      · exact List.mem_cons_of_mem v ih

theorem mem_upsertValidator_of_ne {validators : List (Validator P)} {entry v : Validator P}
    (hv : v ∈ validators) (hne : entry.commitment ≠ v.commitment) :
    v ∈ upsertValidator validators entry := by
  induction validators with
  | nil => cases hv
  | cons w validators ih =>
      rw [upsertValidator_cons]
      split
      next heq =>
        rcases List.mem_cons.mp hv with rfl | hv
        · exact absurd heq.symm hne
        · exact List.mem_cons_of_mem _ hv
      next =>
        rcases List.mem_cons.mp hv with rfl | hv
        · exact List.mem_cons_self
        · exact List.mem_cons_of_mem _ (ih hv)

/-- Registered once, a stake is seated as it was registered. -/
theorem mem_registerAll_of_mem {validators : List (Validator P)} {ops : List (RegisterValidatorOp P)}
    (hnodup : (ops.map RegisterValidatorOp.commitment).Nodup) {op : RegisterValidatorOp P} (hop : op ∈ ops) :
    ⟨op.commitment, op.value, op.proof⟩ ∈ registerAll validators ops := by
  induction ops using List.reverseRecOn with
  | nil => cases hop
  | append_singleton ops o ih =>
      rw [List.map_append, List.nodup_append] at hnodup
      obtain ⟨hops, -, hapart⟩ := hnodup
      rw [registerAll, List.foldl_append]
      rcases List.mem_append.mp hop with hop | hop
      · refine mem_upsertValidator_of_ne (ih hops hop) ?_
        exact (hapart _ (List.mem_map_of_mem hop) _ (List.mem_singleton_self _)).symm
      · obtain rfl := List.mem_singleton.mp hop
        exact mem_upsertValidator_self _ _

/-- A round registers a stake once. -/
theorem nodup_validatorOps (hm : m.Orderly) :
    ((assembleBlock e s (drain m).1 validator).validatorOps.map RegisterValidatorOp.commitment).Nodup := by
  have hdrain : (drain m).1.validatorOps = m.pendingValidatorOps.take maxValidatorOpsPerBlock := by
    rw [drain_eq]
  obtain ⟨kept, hkept, heq⟩ := exists_kept (selects_validatorOp (s := s)) ⟨s.activeValidators, []⟩
    (drain m).1.validatorOps
  have hblock : (assembleBlock e s (drain m).1 validator).validatorOps = kept := heq
  rw [hdrain] at hkept
  rw [hblock]
  exact (nodup_take hm.validatorOps.distinct _).sublist (hkept.map _)

theorem stakeLane_written (h : s.checkBlock b = some c)
    (hnodup : (b.validatorOps.map RegisterValidatorOp.commitment).Nodup) {op : RegisterValidatorOp P}
    (hop : op ∈ b.validatorOps) : (stakeLane P).written s b (s.commitBlock b c).1 op := by
  intro hunspent
  show _ ∈ c.validators.filter fun v => decide (v.commitment ∉ b.bodySpent)
  rw [(accepted_of_checkBlock h).validators, List.mem_filter]
  exact ⟨mem_registerAll_of_mem hnodup hop, decide_eq_true hunspent⟩

end Written

variable (e s validator) in
/-- **What a round does with an operation that has come to the front of its lane.** -/
theorem judged_of_mem {L : Lane P} (hL : L ∈ lanes P) (hm : m.Orderly) (hadmitted : m.Admitted)
    {op : L.Op} (hop : op ∈ (L.pending m).take L.cap) :
    let b := assembleBlock e s (drain m).1 validator
    (op ∈ L.inBlock b ↔ L.fits s m b op) ∧
      ((s.applyBlock b).2.isApplied = true → op ∈ L.inBlock b → L.written s b (s.applyBlock b).1 op) := by
  intro b
  simp only [lanes, List.mem_cons, List.not_mem_nil, or_false] at hL
  rcases hL with rfl | rfl | rfl | rfl
  · refine ⟨transferLane_fits e s validator hm hop, fun happlied hin => ?_⟩
    obtain ⟨c, hcheck, hstate⟩ := exists_candidate happlied
    rw [hstate]
    exact transferLane_written hcheck hin
  · refine ⟨transferAssetLane_fits e s validator hm hop, fun happlied hin => ?_⟩
    obtain ⟨c, hcheck, hstate⟩ := exists_candidate happlied
    rw [hstate]
    exact transferAssetLane_written hcheck hin
  · refine ⟨launchLane_fits e s validator hm hadmitted hop, fun happlied hin => ?_⟩
    obtain ⟨c, hcheck, hstate⟩ := exists_candidate happlied
    rw [hstate]
    exact launchLane_written hcheck hin
  · refine ⟨stakeLane_fits e s validator hm hadmitted hop, fun happlied hin => ?_⟩
    obtain ⟨c, hcheck, hstate⟩ := exists_candidate happlied
    rw [hstate]
    exact stakeLane_written hcheck (nodup_validatorOps hm) hin

end Proposer

end Haze
