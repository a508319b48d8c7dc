import Haze.Chain.Quota

/-!
# Mint phases

A mint of a collection belongs to a phase with a window of time. The window is judged by the timestamp
in the header of the block that carries the mint, which its proposer chose, and no rule relates the
timestamps of successive blocks. So a mint of a phase is never found in a block that says it is past
the end of the phase (`inWindow_applyAll`), but it may be found above one: `turned_back`.

At one time at most one phase of a collection is open (`open_phase_unique`), although the launch only
compares neighbours.
-/

namespace Haze

open Checked

/-! ## Schedules

A collection may only be launched with phases one after another, none of them without duration. So at any
time at most one of them is open. -/

/-- The window in which the chain takes mints of the phase. -/
def MintPhase.OpenAt (phase : MintPhase) (t : UInt64) : Prop :=
  phase.startTime ≤ t ∧ t < phase.endTime

/-- Each phase ends before any later one begins. -/
def Sequential (phases : List MintPhase) : Prop :=
  phases.Pairwise fun p q => p.endTime ≤ q.startTime

theorem window_of_validatePhase {phase : MintPhase} (h : (validatePhase phase).isOk = true) :
    phase.startTime < phase.endTime := by
  have hrest := isOk_of_unless (c := (asBytes phase.name).length > maxCollectionNameLength) h
  exact UInt64.not_le.mp (not_of_isOk hrest)

theorem windows_of_forM {phases : List MintPhase} (h : (phases.forM validatePhase).isOk = true) :
    ∀ p ∈ phases, p.startTime < p.endTime := by
  induction phases with
  | nil => exact List.forall_mem_nil _
  | cons p rest ih =>
      change (validatePhase p >>= fun _ => rest.forM validatePhase).isOk = true at h
      rw [List.forall_mem_cons]
      cases hp : validatePhase p with
      | error e =>
          rw [hp] at h
          cases h
      | ok u =>
          rw [hp] at h
          exact ⟨window_of_validatePhase (by rw [hp]; rfl), ih h⟩

/-- What neighbours keep, all phases keep: every phase in between has a window of its own. -/
theorem sequential_of_validateWindows {phases : List MintPhase}
    (hwindows : ∀ p ∈ phases, p.startTime < p.endTime) (h : (validateWindows phases).isOk = true) :
    Sequential phases := by
  induction phases with
  | nil => exact List.Pairwise.nil
  -- the induction goes along the list; it is enough to look at neighbours
  | cons p rest ih =>
      cases rest with
      | nil => exact List.pairwise_singleton _ _
      | cons q rest =>
          rw [validateWindows] at h
          split at h
          · cases h
          next hnext =>
            have hrest : Sequential (q :: rest) :=
              ih (fun p' hp' => hwindows p' (List.mem_cons_of_mem _ hp')) h
            have hq : q.startTime < q.endTime :=
              hwindows q (List.mem_cons_of_mem _ List.mem_cons_self)
            refine List.Pairwise.cons ?_ hrest
            intro r hr
            rcases List.mem_cons.mp hr with rfl | hr
            · exact UInt64.not_lt.mp hnext
            · calc p.endTime
                  ≤ q.startTime := UInt64.not_lt.mp hnext
                _ ≤ q.endTime := UInt64.le_of_lt hq
                _ ≤ r.startTime := List.rel_of_pairwise_cons hrest hr

theorem sequential_of_validatePhases {phases : List MintPhase} (h : validatePhases phases = .ok ()) :
    Sequential phases := by
  have hok : (validatePhases phases).isOk = true := by
    rw [h]
    rfl
  have hloops := isOk_of_unless (isOk_of_unless hok)
  cases hforM : phases.forM validatePhase with
  | error e =>
      rw [hforM] at hloops
      cases hloops
  | ok u =>
      rw [hforM] at hloops
      exact sequential_of_validateWindows (windows_of_forM (by rw [hforM]; rfl)) hloops

theorem Sequential.not_both_open {phases : List MintPhase} (h : Sequential phases) {t : UInt64} {i j : ℕ}
    (hlt : i < j) {p q : MintPhase} (hi : phases[i]? = some p) (hj : phases[j]? = some q)
    (hp : p.OpenAt t) : ¬ q.OpenAt t := by
  obtain ⟨hi', rfl⟩ := List.getElem?_eq_some_iff.mp hi
  obtain ⟨hj', rfl⟩ := List.getElem?_eq_some_iff.mp hj
  have hapart := List.pairwise_iff_getElem.mp h i j hi' hj' hlt
  intro hq
  exact absurd (UInt64.lt_of_lt_of_le hp.2 hapart) (UInt64.not_lt.mpr hq.1)

/-- **Phases never overlap.** At every time at most one phase of an accepted schedule is open. -/
theorem open_phase_unique {phases : List MintPhase} (h : validatePhases phases = .ok ()) (t : UInt64)
    {i j : ℕ} {p q : MintPhase} (hi : phases[i]? = some p) (hj : phases[j]? = some q) (hp : p.OpenAt t)
    (hq : q.OpenAt t) : i = j := by
  have hseq := sequential_of_validatePhases h
  rcases Nat.lt_trichotomy i j with hlt | heq | hgt
  · exact absurd hq (hseq.not_both_open hlt hi hj hp)
  · exact heq
  · exact absurd hp (hseq.not_both_open hgt hj hi hq)

/-- An allowlist round, a second one that begins when the first one ends, and an open round later. -/
def Devnet.schedule : List MintPhase :=
  [⟨"gtd", 0, 10, 5, 1, some zeroHash⟩, ⟨"fcfs", 10, 20, 5, 1, some zeroHash⟩, ⟨"public", 30, 40, 8, 3, none⟩]

/-- At the time at which the first round ends, only the second one is open. -/
theorem Devnet.schedule_at_ten :
    validatePhases Devnet.schedule = .ok () ∧
      ∀ i p, Devnet.schedule[i]? = some p → p.OpenAt 10 → i = 1 := by
  have hvalid : validatePhases Devnet.schedule = .ok () := by decide +kernel
  have hsecond : (⟨"fcfs", 10, 20, 5, 1, some zeroHash⟩ : MintPhase).OpenAt 10 := ⟨by decide, by decide⟩
  refine ⟨hvalid, ?_⟩
  intro i p hi hp
  exact open_phase_unique hvalid 10 hi rfl hp hsecond

namespace ChainState

variable {P : Crypto} {s s' : ChainState P} {b : Block P} {c : Candidate P} {chain : List (Block P)}

/-- The phase that a mint names is open at the timestamp of the block. -/
def PhaseOpen (collections : KeyedMap String (CollectionRecord P)) (b : Block P)
    (op : MintAssetOp P) : Prop :=
  ∀ id i, op.collectionId = some id → op.phaseIndex = some i →
    ∃ collection phase, collections.lookup id = some collection ∧
      collection.phases[i.toNat]? = some phase ∧
      phase.startTime ≤ b.header.timestamp ∧ b.header.timestamp < phase.endTime

/-! ## One block

A mint that a block carries is in a phase that is open at the time the block has in its header. -/

theorem phaseOpen_of_checkMintCount {collections : KeyedMap String (CollectionRecord P)}
    {acc : MintCheck P} {op : MintAssetOp P} {r : KeyedMap MintKey UInt32 × List MintKey}
    (h : checkMintCount b collections acc op = some r) : PhaseOpen collections b op := by
  intro id i hid hi
  simp only [checkMintCount, hid, hi, checkCollectionMint, Option.bind_eq_bind,
    Option.bind_eq_some_iff, ensure_eq_some, exists_const, Bool.and_eq_true,
    decide_eq_true_eq] at h
  obtain ⟨⟨collection, hcol, phase, hphase, hopen, -⟩, -⟩ := h
  exact ⟨collection, phase, hcol, hphase, hopen⟩

theorem phaseOpen_of_foldlM {collections : KeyedMap String (CollectionRecord P)}
    {ops : List (MintAssetOp P)} {init acc : MintCheck P}
    (h : ops.foldlM (s.checkMintOp b collections) init = some acc) :
    ∀ op ∈ ops, PhaseOpen collections b op := by
  refine foldlM_induct (motive := fun ops _ => ∀ op ∈ ops, PhaseOpen collections b op) ?_ ?_ h
  · simp
  · intro ops op acc acc' ih hop
    simp only [checkMintOp, Option.bind_eq_bind, Option.bind_eq_some_iff, ensure_eq_some,
      exists_const, Option.pure_def, Option.some.injEq] at hop
    obtain ⟨-, -, spent', -, counted, hcount, -, -⟩ := hop
    rw [List.forall_mem_append, List.forall_mem_singleton]
    exact ⟨ih, phaseOpen_of_checkMintCount hcount⟩

theorem phaseOpen_of_checkBlock (h : s.checkBlock b = some c) :
    ∀ op ∈ b.mintOps, PhaseOpen c.collections b op := by
  simp only [checkBlock, Option.bind_eq_bind, Option.bind_eq_some_iff, ensure_eq_some, exists_const,
    Option.pure_def, Option.some.injEq] at h
  obtain ⟨-, _, -, -, -, -, -, named, -, names, -, -, launched, -, -, minted, hminted, assets,
    hassets, -, validators, -, rfl⟩ := h
  exact phaseOpen_of_foldlM hminted

/-! ## Whole chains

Along a chain, whatever was minted had its phase open at the time of its block; that time is the proposer's
word. -/

/-- Every mint on the chain is in a block of its phase, by the collections of the state. -/
def InWindow (s : ChainState P) (chain : List (Block P)) : Prop :=
  ∀ b ∈ chain, ∀ op ∈ b.mintOps, PhaseOpen s.collectionRegistry b op

theorem InWindow.commitBlock (h : InWindow s chain) (hcheck : s.checkBlock b = some c) :
    InWindow (s.commitBlock b c).1 (b :: chain) := by
  have hacc := accepted_of_checkBlock hcheck
  have hrec := recorded_of_checkBlock hcheck
  intro b' hb' op hop
  rw [hrec.collectionRegistry_eq]
  rcases List.mem_cons.mp hb' with rfl | hb'
  · exact phaseOpen_of_checkBlock hcheck op hop
  · -- a collection that is launched stays as it is
    intro id i hid hi
    obtain ⟨collection, phase, hcol, hphase, hopen⟩ := h b' hb' op hop id i hid hi
    exact ⟨collection, phase, hrec.collection_kept hacc hcol, hphase, hopen⟩

theorem inWindow_applyAll {bs : List (Block P)} {δs : List (AppliedDelta P)}
    (h : applyAll bs ChainState.new = some (s', δs)) : InWindow s' bs := by
  have hstart : InWindow (ChainState.new : ChainState P) [] := fun b hb => nomatch hb
  have hrun := applyAll_induct (motive := InWindow) InWindow.commitBlock hstart h
  rw [List.append_nil] at hrun
  exact fun b hb => hrun b (List.mem_reverse.mpr hb)

/-- A mint of the phase. -/
def MintsIn (b : Block P) (id : String) (i : UInt32) : Prop :=
  ∃ op ∈ b.mintOps, op.collectionId = some id ∧ op.phaseIndex = some i

instance (b : Block P) (id : String) (i : UInt32) : Decidable (MintsIn b id i) :=
  inferInstanceAs (Decidable (∃ op ∈ b.mintOps, op.collectionId = some id ∧ op.phaseIndex = some i))

/-- **Finished phases.** Above a block that is past the end of a phase, a block with a mint of that
phase says that it is not: its timestamp is before the end of the phase, and before that of the block
below. -/
theorem mint_after_end_turns_back {bs before after : List (Block P)} {δs : List (AppliedDelta P)}
    (h : applyAll bs ChainState.new = some (s', δs)) {id : String} {i : UInt32}
    {collection : CollectionRecord P} {phase : MintPhase}
    (hcol : s'.collectionRegistry.lookup id = some collection)
    (hphase : collection.phases[i.toNat]? = some phase) (hbs : bs = before ++ b :: after)
    (hend : phase.endTime ≤ b.header.timestamp) {b' : Block P} (hb' : b' ∈ after)
    (hmint : MintsIn b' id i) :
    b'.header.timestamp < phase.endTime ∧ b'.header.timestamp < b.header.timestamp := by
  obtain ⟨op, hop, hid, hi⟩ := hmint
  have hmem : b' ∈ bs := by
    rw [hbs]
    exact List.mem_append_right _ (List.mem_cons_of_mem _ hb')
  obtain ⟨collection', phase', hcol', hphase', -, hopen⟩ := inWindow_applyAll h b' hmem op hop id i hid hi
  obtain rfl : collection = collection' := Option.some.inj (hcol.symm.trans hcol')
  obtain rfl : phase = phase' := Option.some.inj (hphase.symm.trans hphase')
  exact ⟨hopen, UInt64.lt_of_lt_of_le hopen hend⟩

end ChainState

namespace Devnet

open ChainState

/-- A collection with one phase, which ends at time 1. -/
def launchedAtZero : Block crypto :=
  mineAssets (linear [genesis]) (coinbase 1 11) [launchOp "relics" 8 2] [] []

/-- A block at time 5. -/
def pastTheEnd : Block crypto :=
  let b := draft (linear [genesis, launchedAtZero]) (genesisDefault crypto) (coinbase 2 12)
  sealBlock 42 { b with header := { b.header with timestamp := 5 } }

/-- A block at time 0, with a mint. -/
def turnedBack : Block crypto :=
  mineAssets (linear [genesis, launchedAtZero, pastTheEnd]) (coinbase 3 13) []
    [collectionMintOp "relic" "relics" 3 8 (Commitment.new (P := crypto) 0 (0 - 13 : BitVec 256))
      (payment (genesisTotalMinted - 1_000_000) 7 3 5)] []

/-- The blocks and the phase, as `mint_after_end_turns_back` takes them. -/
structure MintAboveEnd (s' : ChainState crypto) (collection : CollectionRecord crypto)
    (phase : MintPhase) : Prop where
  applied : ∃ δs, applyAll [genesis, launchedAtZero, pastTheEnd, turnedBack] ChainState.new = some (s', δs)
  launched : s'.collectionRegistry.lookup "relics" = some collection
  phase_eq : collection.phases[(0 : UInt32).toNat]? = some phase
  ended : phase.endTime ≤ pastTheEnd.header.timestamp
  mints : MintsIn turnedBack "relics" 0

theorem exists_mintAboveEnd : ∃ s' collection phase, MintAboveEnd s' collection phase := by
  have hrun : (applyAll [genesis, launchedAtZero, pastTheEnd, turnedBack] ChainState.new).any
        (fun r => ((r.1.collectionRegistry.lookup "relics").bind fun c => c.phases[0]?).any
          fun p => p.endTime ≤ pastTheEnd.header.timestamp) = true ∧
      MintsIn turnedBack "relics" 0 := by
    decide +kernel
  obtain ⟨happly, hmint⟩ := hrun
  obtain ⟨⟨s', δs⟩, h, hphases⟩ := (Option.any_eq_true _ _).mp happly
  obtain ⟨phase, hphase, hend⟩ := (Option.any_eq_true _ _).mp hphases
  obtain ⟨collection, hcol, hphase⟩ := Option.bind_eq_some_iff.mp hphase
  exact ⟨s', collection, phase, ⟨δs, h⟩, hcol, hphase, by simpa using hend, hmint⟩

/-- A mint of the phase above a block that is past its end. -/
theorem mint_above_end :
    ∃ s' δs collection phase,
      applyAll [genesis, launchedAtZero, pastTheEnd, turnedBack] ChainState.new = some (s', δs) ∧
      s'.collectionRegistry.lookup "relics" = some collection ∧
      collection.phases[(0 : UInt32).toNat]? = some phase ∧
      phase.endTime ≤ pastTheEnd.header.timestamp ∧ MintsIn turnedBack "relics" 0 := by
  obtain ⟨s', collection, phase, ⟨δs, happly⟩, hcol, hphase, hend, hmint⟩ := exists_mintAboveEnd
  exact ⟨s', δs, collection, phase, happly, hcol, hphase, hend, hmint⟩

theorem turnedBack_turns_back :
    ∃ phase : MintPhase, phase.endTime ≤ pastTheEnd.header.timestamp ∧
      turnedBack.header.timestamp < phase.endTime ∧
      turnedBack.header.timestamp < pastTheEnd.header.timestamp := by
  obtain ⟨s', collection, phase, ⟨δs, happly⟩, hcol, hphase, hend, hmint⟩ := exists_mintAboveEnd
  have hsplit : [genesis, launchedAtZero, pastTheEnd, turnedBack] =
      [genesis, launchedAtZero] ++ pastTheEnd :: [turnedBack] := rfl
  have hturns := mint_after_end_turns_back happly hcol hphase hsplit hend
    (List.mem_singleton_self _) hmint
  exact ⟨phase, hend, hturns⟩

end Devnet

end Haze
