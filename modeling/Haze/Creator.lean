import Haze.Mint

/-!
# What the creator of a collection signs (`assets.rs`, `collections.rs`)

A creator signs the launch of a collection and, later, an approval for each mint from it. Both messages
put identifiers and texts one after another, and none of these carries its length. In an approval the only
end that is not told by the message is the one between the two ids; in a launch it is the end of every text
up to the phases.
-/

namespace Haze

variable {P : Crypto}

/-! ## Approvals

The two ids stand side by side, everything behind them has a fixed length. -/

/-- The arguments of `MintAssetOp::collection_approval_signing_message`. -/
@[ext] structure ApprovalTerms (P : Crypto) where
  assetId : String
  collectionId : String
  phaseIndex : UInt32
  requiredKernelExcess : Commitment P
  ownerPubkey : Commitment P
  deriving DecidableEq

namespace ApprovalTerms

/-- The bytes that are signed. -/
def message (t : ApprovalTerms P) : List UInt8 :=
  MintAssetOp.collectionApprovalSigningMessage t.assetId t.collectionId t.phaseIndex
    t.requiredKernelExcess t.ownerPubkey

/-- Both ids have passed their checks. -/
structure Valid (t : ApprovalTerms P) : Prop where
  assetId : validateAssetId t.assetId = .ok ()
  collectionId : validateCollectionId t.collectionId = .ok ()

/-- The asset id of `t'` goes on with bytes that the collection id of `t` begins with; all else is the
same. -/
structure Shifted (t t' : ApprovalTerms P) : Prop where
  ids : ∃ run ≠ [], asBytes t'.assetId = asBytes t.assetId ++ run ∧
    asBytes t.collectionId = run ++ asBytes t'.collectionId
  phaseIndex : t.phaseIndex = t'.phaseIndex
  requiredKernelExcess : t.requiredKernelExcess = t'.requiredKernelExcess
  ownerPubkey : t.ownerPubkey = t'.ownerPubkey

variable {t t' : ApprovalTerms P}

/-- The part of the message behind the ids. -/
def behindIds (t : ApprovalTerms P) : List UInt8 :=
  toLeBytes 4 t.phaseIndex.toNat ++ (t.requiredKernelExcess.toBytes ++ t.ownerPubkey.toBytes)

theorem length_behindIds (t : ApprovalTerms P) : t.behindIds.length = 68 := by
  rw [behindIds, List.length_append, List.length_append, Devnet.length_toLeBytes,
    Commitment.length_toBytes, Commitment.length_toBytes]

theorem message_eq (t : ApprovalTerms P) :
    t.message = asBytes "HazeCollectionMintApproval:" ++
      ((asBytes t.assetId ++ asBytes t.collectionId) ++ t.behindIds) := by
  simp only [message, MintAssetOp.collectionApprovalSigningMessage, behindIds, List.append_assoc]

/-- Behind the ids every field has its place. -/
theorem behindIds_inj (h : t.behindIds = t'.behindIds) :
    t.phaseIndex = t'.phaseIndex ∧ t.requiredKernelExcess = t'.requiredKernelExcess ∧
      t.ownerPubkey = t'.ownerPubkey := by
  unfold behindIds at h
  obtain ⟨hphase, hkeys⟩ := List.append_inj h
    ((Devnet.length_toLeBytes _ _).trans (Devnet.length_toLeBytes _ _).symm)
  obtain ⟨hexcess, howner⟩ := List.append_inj hkeys
    ((Commitment.length_toBytes _).trans (Commitment.length_toBytes _).symm)
  refine ⟨?_, Commitment.toBytes_injective hexcess, Commitment.toBytes_injective howner⟩
  exact UInt32.toNat_inj.mp (toLeBytes_inj_of_lt (UInt32.toNat_lt _) (UInt32.toNat_lt _) hphase)

theorem Shifted.message_eq (h : Shifted t t') : t.message = t'.message := by
  obtain ⟨⟨run, -, hasset, hcollection⟩, hphase, hexcess, howner⟩ := h
  rw [ApprovalTerms.message_eq, ApprovalTerms.message_eq, hasset, hcollection, behindIds, behindIds,
    hphase, hexcess, howner]
  simp only [List.append_assoc]

theorem Shifted.ne (h : Shifted t t') : t ≠ t' := by
  rintro rfl
  obtain ⟨⟨run, hrun, hasset, -⟩, -⟩ := h
  exact hrun (List.self_eq_append_right.mp hasset)

theorem eq_or_shifted_of_message_eq (h : t.message = t'.message) :
    t = t' ∨ Shifted t t' ∨ Shifted t' t := by
  rw [ApprovalTerms.message_eq, ApprovalTerms.message_eq] at h
  obtain ⟨hids, hbehind⟩ := List.append_inj' (List.append_cancel_left h)
    ((length_behindIds t).trans (length_behindIds t').symm)
  obtain ⟨hphase, hexcess, howner⟩ := behindIds_inj hbehind
  rcases Encoding.cut_cases hids with
    ⟨hasset, hcollection⟩ | ⟨run, hrun, hasset, hcollection⟩ | ⟨run, hrun, hasset, hcollection⟩
  · exact .inl (ApprovalTerms.ext (asBytes_injective hasset) (asBytes_injective hcollection) hphase
      hexcess howner)
  · exact .inr (.inl ⟨⟨run, hrun, hasset, hcollection⟩, hphase, hexcess, howner⟩)
  · exact .inr (.inr ⟨⟨run, hrun, hasset, hcollection⟩, hphase.symm, hexcess.symm, howner.symm⟩)

/-- **What an approval binds.** One approval is for one mint, unless the other has the end of the asset id
moved. -/
theorem eq_of_approval_eq_iff (t t' : ApprovalTerms P) :
    (t.message = t'.message → t = t') ↔ ¬ Shifted t t' ∧ ¬ Shifted t' t := by
  apply Encoding.binds_iff
  · exact fun _ _ h => ⟨h.message_eq, h.ne⟩
  · exact eq_or_shifted_of_message_eq

/-- An approval of the asset `abcd` of `efg` is one of the asset `abc` of `defg`. -/
theorem approval_abcd_efg :
    ∃ t t' : ApprovalTerms Devnet.crypto, t.Valid ∧ t'.Valid ∧ t.message = t'.message ∧ t ≠ t' ∧
      t.collectionId ≠ t'.collectionId := by
  let owner : Commitment Devnet.crypto := Commitment.new (P := Devnet.crypto) 0 (3 : BitVec 256)
  refine ⟨⟨"abcd", "efg", 0, owner, owner⟩, ⟨"abc", "defg", 0, owner, owner⟩, ⟨?_, ?_⟩, ⟨?_, ?_⟩, ?_,
    ?_, ?_⟩
  all_goals decide +kernel

end ApprovalTerms

/-! ## Launches

Five fields of any length stand side by side, and a key in front of the second. Only what is behind all of
them has a fixed length. -/

/-- The arguments of `LaunchCollectionOp::signing_message`. -/
@[ext] structure LaunchTerms (P : Crypto) where
  collectionId : String
  creatorPubkey : Commitment P
  name : String
  symbol : String
  metadata : List UInt8
  phases : List MintPhase
  royaltyBps : UInt16
  deriving DecidableEq

/-- What the creator signed for. -/
def LaunchCollectionOp.terms (op : LaunchCollectionOp P) : LaunchTerms P :=
  ⟨op.collectionId, op.creatorPubkey, op.name, op.symbol, op.metadata, op.phases, op.royaltyBps⟩

namespace LaunchTerms

/-- The bytes that are signed. -/
def message (t : LaunchTerms P) : List UInt8 :=
  LaunchCollectionOp.signingMessage t.collectionId t.creatorPubkey t.name t.symbol t.metadata t.phases
    t.royaltyBps

/-- `bincode::serialize(phases)`. -/
def phaseBytes (t : LaunchTerms P) : List UInt8 :=
  P.bincode (.seq (t.phases.map MintPhase.serde))

/-- The fields in the order of the message, without the royalty at its end. -/
def parts (t : LaunchTerms P) : List (List UInt8) :=
  [asBytes t.collectionId, t.creatorPubkey.toBytes, asBytes t.name, asBytes t.symbol, t.metadata,
    t.phaseBytes]

/-- The terms are each other's with the end of a field moved. -/
structure Shifted (t t' : LaunchTerms P) : Prop where
  parts : Encoding.Moved t.parts t'.parts
  royaltyBps : t.royaltyBps = t'.royaltyBps

variable {t t' : LaunchTerms P}

theorem message_eq (t : LaunchTerms P) :
    t.message = asBytes "HazeLaunchCollection:" ++
      (t.parts.flatten ++ toLeBytes 2 t.royaltyBps.toNat) := by
  simp only [message, LaunchCollectionOp.signingMessage, parts, phaseBytes, List.flatten_cons,
    List.flatten_nil, List.append_nil, List.append_assoc]

/-- The parts tell the fields, if the encoder tells the phases. -/
theorem eq_of_parts_eq (hphases : t.phaseBytes = t'.phaseBytes → t.phases = t'.phases)
    (hparts : t.parts = t'.parts) (hroyalty : t.royaltyBps = t'.royaltyBps) : t = t' := by
  simp only [parts, List.cons.injEq, and_true] at hparts
  obtain ⟨hid, hcreator, hname, hsymbol, hmetadata, hencoded⟩ := hparts
  exact LaunchTerms.ext (asBytes_injective hid) (Commitment.toBytes_injective hcreator)
    (asBytes_injective hname) (asBytes_injective hsymbol) hmetadata (hphases hencoded) hroyalty

theorem Shifted.message_eq (h : Shifted t t') : t.message = t'.message := by
  rw [LaunchTerms.message_eq, LaunchTerms.message_eq, h.parts.flatten_eq, h.royaltyBps]

theorem Shifted.ne (h : Shifted t t') : t ≠ t' :=
  fun heq => h.parts.ne (congrArg LaunchTerms.parts heq)

theorem eq_or_shifted_of_message_eq (hphases : t.phaseBytes = t'.phaseBytes → t.phases = t'.phases)
    (h : t.message = t'.message) : t = t' ∨ Shifted t t' ∨ Shifted t' t := by
  rw [LaunchTerms.message_eq, LaunchTerms.message_eq] at h
  obtain ⟨hparts, hbps⟩ := List.append_inj' (List.append_cancel_left h)
    ((Devnet.length_toLeBytes _ _).trans (Devnet.length_toLeBytes _ _).symm)
  have hroyalty : t.royaltyBps = t'.royaltyBps :=
    UInt16.toNat_inj.mp (toLeBytes_inj_of_lt (UInt16.toNat_lt _) (UInt16.toNat_lt _) hbps)
  have hlength : t.parts.length = t'.parts.length := rfl
  rcases Encoding.flatten_eq_cases hlength hparts with heq | hmoved | hmoved
  · exact .inl (eq_of_parts_eq hphases heq hroyalty)
  · exact .inr (.inl ⟨hmoved, hroyalty⟩)
  · exact .inr (.inr ⟨hmoved, hroyalty.symm⟩)

/-- **What a launch signature binds.** One signature is for one launch, unless the other has the end of a
field moved. -/
theorem eq_of_launch_eq_iff (t t' : LaunchTerms P)
    (hphases : t.phaseBytes = t'.phaseBytes → t.phases = t'.phases) :
    (t.message = t'.message → t = t') ↔ ¬ Shifted t t' ∧ ¬ Shifted t' t := by
  apply Encoding.binds_iff
  · exact fun _ _ h => ⟨h.message_eq, h.ne⟩
  · exact eq_or_shifted_of_message_eq hphases

/-- Fields of the same lengths leave nothing to move. -/
theorem not_shifted_of_lengths (h : t.parts.map List.length = t'.parts.map List.length) :
    ¬ Shifted t t' :=
  fun hshift => hshift.parts.lengths_ne h

end LaunchTerms

namespace Devnet

/-- A launch with this name and symbol, under the signature for the name `ab` and the symbol `c`. -/
def relaunch (name symbol : String) : LaunchCollectionOp crypto :=
  let owner := Commitment.new (P := crypto) 0 (3 : BitVec 256)
  let phases : List MintPhase := [⟨"open", 0, 1, 0, 1, none⟩]
  ⟨"relics", owner, name, symbol, [], phases, 0, Signature.sign (P := crypto)
    (LaunchCollectionOp.signingMessage "relics" owner "ab" "c" [] phases 0) (3 : BitVec 256) (5 : BitVec 256)⟩

/-- The signature of a launch is good for another name and symbol. -/
theorem launch_ab_c :
    (relaunch "ab" "c").validateStandalone = .ok () ∧ (relaunch "a" "bc").validateStandalone = .ok () ∧
      (relaunch "ab" "c").terms.message = (relaunch "a" "bc").terms.message ∧
      (relaunch "ab" "c").terms ≠ (relaunch "a" "bc").terms := by
  decide +kernel

/-- Between names of one length it cannot be exchanged. -/
theorem launch_ab_ad :
    (relaunch "ab" "c").terms.parts.map List.length = (relaunch "ad" "c").terms.parts.map List.length ∧
      ((relaunch "ab" "c").terms.message = (relaunch "ad" "c").terms.message →
        (relaunch "ab" "c").terms = (relaunch "ad" "c").terms) := by
  have hlengths : (relaunch "ab" "c").terms.parts.map List.length =
      (relaunch "ad" "c").terms.parts.map List.length := by
    decide +kernel
  have hphases : (relaunch "ab" "c").terms.phases = (relaunch "ad" "c").terms.phases := rfl
  refine ⟨hlengths, (LaunchTerms.eq_of_launch_eq_iff _ _ fun _ => hphases).mpr ⟨?_, ?_⟩⟩
  · exact LaunchTerms.not_shifted_of_lengths hlengths
  · exact LaunchTerms.not_shifted_of_lengths hlengths.symm

end Devnet

end Haze
