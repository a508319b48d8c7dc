import Haze.Chain.Checks
import Haze.Chain.Written
import Haze.Devnet

/-!
# Where a name resolves to

The owner of a name signs its registration before anyone else has seen it; the node that sponsors the
fee, the peers and the proposer all handle the operation afterwards. What they cannot change is what the
signature covers, and that is the name: a transfer binds the new target, a registration does not bind the
first one. So whoever handles a registration can point the name elsewhere.
-/

namespace Haze

open Checked

variable {P : Crypto}

/-- The registration with another target. -/
def RegisterNameOp.redirect (op : RegisterNameOp P) (target : Commitment P) : RegisterNameOp P :=
  { op with resolvesTo := target }

/-- Every registration that shares the signature, the name and its owner has the same target. -/
def RegisterNameOp.TargetBound (op : RegisterNameOp P) : Prop :=
  ∀ op' : RegisterNameOp P, op'.name = op.name → op'.ownerPubkey = op.ownerPubkey →
    op'.signature = op.signature → op'.validateStandalone.isOk = true → op'.resolvesTo = op.resolvesTo

/-- The block with the registration of `name` redirected. -/
def Block.redirect (b : Block P) (name : String) (target : Commitment P) : Block P :=
  { b with nameOps := b.nameOps.map fun op => if op.name = name then op.redirect target else op }

/-- The check of a registration does not look at its target. -/
theorem RegisterNameOp.validateStandalone_redirect (op : RegisterNameOp P) (target : Commitment P) :
    (op.redirect target).validateStandalone = op.validateStandalone := rfl

/-- No valid registration has its target bound. -/
theorem RegisterNameOp.not_targetBound [Nontrivial P.Point] {op : RegisterNameOp P}
    (h : op.validateStandalone.isOk = true) : ¬ op.TargetBound := by
  obtain ⟨p, hp⟩ := exists_ne op.resolvesTo.asPoint
  intro hbound
  have hsame := hbound (op.redirect ⟨p⟩) rfl rfl rfl h
  exact hp (congrArg Commitment.asPoint hsame)

namespace ChainState

variable {s : ChainState P} {b : Block P}

/-- What the checks of names read of the accumulator: not the records. -/
structure SameNames (acc acc' : NameCheck P) : Prop where
  spent : acc'.spent = acc.spent
  names : acc'.names = acc.names

theorem sameNames_checkNameOp (name : String) (target : Commitment P) {height : UInt64}
    {acc acc' acc₁ : NameCheck P} {op : RegisterNameOp P} (hsame : SameNames acc acc')
    (h : s.checkNameOp height acc op = some acc₁) :
    ∃ acc₁', s.checkNameOp height acc' (if op.name = name then op.redirect target else op) = some acc₁' ∧
      SameNames acc₁ acc₁' := by
  have hredirect : ∀ op' : RegisterNameOp P, op'.name = op.name → op'.feePayment = op.feePayment →
      op'.validateStandalone = op.validateStandalone →
      ∃ acc₁', s.checkNameOp height acc' op' = some acc₁' ∧ SameNames acc₁ acc₁' := by
    intro op' hname hpayment hvalid
    simp only [checkNameOp, Option.bind_eq_bind, Option.bind_eq_some_iff, ensure_eq_some, exists_const,
      Option.pure_def, Option.some.injEq] at h ⊢
    obtain ⟨hval, hnew, spent', hspent, rfl⟩ := h
    rw [hname, hpayment, hvalid, hsame.spent, hsame.names]
    exact ⟨_, ⟨hval, hnew, spent', hspent, rfl⟩, rfl, rfl⟩
  split
  · exact hredirect _ rfl rfl (op.validateStandalone_redirect target)
  · exact hredirect op rfl rfl rfl

theorem sameNames_checkTransferOp {acc acc' acc₁ : NameCheck P} {op : TransferNameOp P}
    (hsame : SameNames acc acc') (h : s.checkTransferOp acc op = some acc₁) :
    ∃ acc₁', s.checkTransferOp acc' op = some acc₁' ∧ SameNames acc₁ acc₁' := by
  simp only [checkTransferOp, Option.bind_eq_bind, Option.bind_eq_some_iff, ensure_eq_some, exists_const,
    Option.pure_def, Option.some.injEq] at h ⊢
  obtain ⟨hseen, current, hcur, hsig, rfl⟩ := h
  rw [hsame.names]
  exact ⟨_, ⟨hseen, current, hcur, hsig, rfl⟩, hsame.spent, rfl⟩

theorem satisfied_redirect (name : String) (target : Commitment P) :
    s.satisfied (b.redirect name target) = s.satisfied b := by
  have hpayments : (b.redirect name target).payments = b.payments := by
    unfold Block.payments Block.redirect
    rw [List.map_map]
    congr 1
    apply List.map_congr_left
    intro op hop
    show (if op.name = name then op.redirect target else op).feePayment = op.feePayment
    split <;> rfl
  have hexcesses : (b.redirect name target).excesses = b.excesses := by
    unfold Block.excesses Block.kernels Block.transactions
    rw [hpayments]
    rfl
  funext excess
  rw [satisfied, satisfied, Block.blockKernelExcesses, Block.blockKernelExcesses, hexcesses]

/-- The checks of assets see the same kernels, the same time and the same height. -/
theorem checkMintOp_redirect (name : String) (target : Commitment P) :
    s.checkMintOp (b.redirect name target) = s.checkMintOp b := by
  funext collections acc op
  unfold checkMintOp conditionMet
  rw [satisfied_redirect]
  rfl

theorem checkTransferAssetOp_redirect (name : String) (target : Commitment P) :
    s.checkTransferAssetOp (b.redirect name target) = s.checkTransferAssetOp b := by
  funext acc op
  unfold checkTransferAssetOp conditionMet royaltyMet
  rw [satisfied_redirect]

/-- The operations of a redirected block pass the checks, and lead to a registry with the new target. -/
theorem checkOps_redirect {c : Candidate P} (h : s.checkOps b = some c) {op : RegisterNameOp P}
    (hop : op ∈ b.nameOps) (target : Commitment P) :
    ∃ c', s.checkOps (b.redirect op.name target) = some c' ∧
      c'.registry.lookup op.name = some ((op.redirect target).record b.height) := by
  simp only [checkOps, Option.bind_eq_bind, Option.bind_eq_some_iff, Option.pure_def,
    Option.some.injEq] at h
  obtain ⟨named, hnamed, names, hnames, launched, hlaunched, minted, hminted, assets, hassets, validators,
    hvalidators, rfl⟩ := h
  -- the registrations go through as before: the target is in no check
  have hstep : ∀ acc acc' (op' : RegisterNameOp P) acc₁, SameNames acc acc' →
      s.checkNameOp b.height acc op' = some acc₁ →
      ∃ acc₁', s.checkNameOp b.height acc' (if op'.name = op.name then op'.redirect target else op') =
        some acc₁' ∧ SameNames acc₁ acc₁' :=
    fun _ _ _ _ => sameNames_checkNameOp op.name target
  obtain ⟨named', hnamed', hsame⟩ := foldlM_simulates _ hstep ⟨rfl, rfl⟩ hnamed
  obtain ⟨names', hnames', hsame⟩ := foldlM_simulates id
    (fun _ _ _ _ hsame h => sameNames_checkTransferOp hsame h) hsame hnames
  rw [List.map_id] at hnames'
  have hwritten := (namesWritten_of_foldlM hnamed').transfers hnames'
  have hmem : op.redirect target ∈ (b.redirect op.name target).nameOps :=
    List.mem_map.mpr ⟨op, hop, if_pos rfl⟩
  refine ⟨⟨names'.registry, launched.registry, assets.registry, assets.counts, assets.mints, validators⟩,
    ?_, (hwritten.registered _ hmem).2⟩
  -- and so do all other operations, which do not look at targets
  rw [← hsame.spent] at hminted
  simp only [checkOps, checkMintOp_redirect, checkTransferAssetOp_redirect, Option.bind_eq_bind,
    Option.bind_eq_some_iff, Option.pure_def, Option.some.injEq]
  exact ⟨named', hnamed', names', hnames', launched, hlaunched, minted, hminted, assets, hassets,
    validators, hvalidators, rfl⟩

theorem valid_of_checkOps {c : Candidate P} (h : s.checkOps b = some c) :
    ∀ op ∈ b.nameOps, op.validateStandalone.isOk = true := by
  simp only [checkOps, Option.bind_eq_bind, Option.bind_eq_some_iff] at h
  obtain ⟨named, hnamed, -⟩ := h
  refine foldlM_induct (motive := fun ops _ =>
    ∀ op ∈ ops, (RegisterNameOp.validateStandalone op).isOk = true) ?_ ?_ hnamed
  · exact List.forall_mem_nil _
  · intro ops op acc acc' ih hop
    simp only [checkNameOp, Option.bind_eq_bind, Option.bind_eq_some_iff, ensure_eq_some,
      exists_const] at hop
    rw [List.forall_mem_append, List.forall_mem_singleton]
    exact ⟨ih, hop.1⟩

/-- **A registration can be redirected.** Of no registration that the chain accepts does the signature
determine the target, and the chain's checks let every other target through and store it. -/
theorem registration_unbound [Nontrivial P.Point] {r : ChainState P × AppliedDelta P}
    (h : s.applyLinearBlock b = some r) {op : RegisterNameOp P} (hop : op ∈ b.nameOps) :
    ¬ op.TargetBound ∧ ∀ target, ∃ c, s.checkOps (b.redirect op.name target) = some c ∧
      c.registry.lookup op.name = some ⟨op.name, op.ownerPubkey, target, b.height⟩ := by
  obtain ⟨c, hcheck, -⟩ := Option.map_eq_some_iff.mp h
  obtain ⟨-, hops, -⟩ := checkBlock_eq_some_iff.mp hcheck
  exact ⟨RegisterNameOp.not_targetBound (valid_of_checkOps hops op hop), checkOps_redirect hops hop⟩

end ChainState

namespace Devnet

/-- A registration of `alice`, pointing to its owner. -/
def aliceOp : RegisterNameOp crypto :=
  nameOp "alice" 3 (payment (genesisTotalMinted - 1_000_000) 7 3 5)

/-- Somebody else's key. -/
def elsewhere : Commitment crypto := Commitment.new (P := crypto) 0 (4 : BitVec 256)

/-- The block that registers `alice` by this operation. -/
def naming (op : RegisterNameOp crypto) : Block crypto :=
  mineNames (linear [genesis]) (coinbase 1 11) [op]

/-- Two blocks for the same place, with one signature of the owner, point the name to different keys. -/
theorem alice_redirected :
    ((linear [genesis]).applyLinearBlock (naming aliceOp)).any (fun r =>
      r.1.nameRegistry.lookup "alice" = some ⟨"alice", aliceOp.ownerPubkey, aliceOp.resolvesTo, 1⟩) = true ∧
    ((linear [genesis]).applyLinearBlock (naming (aliceOp.redirect elsewhere))).any (fun r =>
      r.1.nameRegistry.lookup "alice" = some ⟨"alice", aliceOp.ownerPubkey, elsewhere, 1⟩) = true ∧
    (aliceOp.redirect elsewhere).name = aliceOp.name ∧
    (aliceOp.redirect elsewhere).ownerPubkey = aliceOp.ownerPubkey ∧
    (aliceOp.redirect elsewhere).signature = aliceOp.signature ∧
    (aliceOp.redirect elsewhere).validateStandalone.isOk = true ∧
    (aliceOp.redirect elsewhere).resolvesTo ≠ aliceOp.resolvesTo := by
  decide +kernel

theorem alice_unbound :
    ∃ r, (linear [genesis]).applyLinearBlock (naming aliceOp) = some r ∧ ¬ aliceOp.TargetBound := by
  have happly : ((linear [genesis]).applyLinearBlock (naming aliceOp)).isSome = true := by
    decide +kernel
  obtain ⟨r, hr⟩ := Option.isSome_iff_exists.mp happly
  have hne : (0 : BitVec 256) ≠ 1 := by decide
  have : Nontrivial crypto.Point := ⟨⟨_, _, hne⟩⟩
  exact ⟨r, hr, (ChainState.registration_unbound hr (List.mem_singleton.mpr rfl)).1⟩

end Devnet

end Haze
