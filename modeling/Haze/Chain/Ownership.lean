import Haze.Chain.Undo
import Haze.Chain.Written
import Haze.Lib.Custody

/-!
# Who owns names and assets

An accepted block keeps every name and every asset, and changes who holds one only by a single
transfer that the previous owner signed, and that its payment conditions allow (`ownership_safe`).

A transfer is signed over its own fields, which say nothing about when it was made. Once a thing has
come back to the signer, the same transfer is valid again (`resale_replays`); `transfers_single_use`
says that this is the only way.
-/

namespace Haze

namespace ChainState

variable {P : Crypto} {s s' : ChainState P} {b : Block P} {c : Candidate P}

def nameOwner (s : ChainState P) (name : String) : Option (Commitment P) :=
  (s.nameRegistry.lookup name).map NameRecord.ownerPubkey

def assetOwner (s : ChainState P) (assetId : String) : Option (Commitment P) :=
  (s.assetRegistry.lookup assetId).map AssetRecord.ownerPubkey

/-! ## One block

Of one accepted block: whoever has something keeps it, or has signed it away, and is paid if it was a sale.
-/

/-- The payments that a transfer of the asset `r` was made conditional on have been made: the
seller's, and the creator's when the collection charges a royalty. -/
structure SwapSettled (s : ChainState P) (r : AssetRecord P) (op : TransferAssetOp P)
    (s' : ChainState P) : Prop where
  paid : ∀ e, op.requiredKernelExcess = some e → e ∈ s'.kernelExcesses
  royalty : ∀ e id collection, op.requiredKernelExcess = some e → r.collectionId = some id →
    s.collectionRegistry.lookup id = some collection → collection.royaltyBps > 0 →
      ∃ f, op.requiredRoyaltyKernelExcess = some f ∧ f ∈ s'.kernelExcesses

/-- What a block may do to names and assets. -/
structure OwnershipSafe (s : ChainState P) (b : Block P) (s' : ChainState P) : Prop where
  names : ∀ name r, s.nameRegistry.lookup name = some r → ∃ r',
    s'.nameRegistry.lookup name = some r' ∧ r'.registeredAtBlock = r.registeredAtBlock ∧
      (r'.ownerPubkey ≠ r.ownerPubkey ∨ r'.resolvesTo ≠ r.resolvesTo →
        ∃ op, b.transferOps.filter (fun op => op.name = name) = [op] ∧
          op.signedBy r.ownerPubkey = true)
  assets : ∀ assetId r, s.assetRegistry.lookup assetId = some r → ∃ r',
    s'.assetRegistry.lookup assetId = some r' ∧ r'.mintedAtBlock = r.mintedAtBlock ∧
      r'.metadata = r.metadata ∧ r'.collectionId = r.collectionId ∧
      (r'.ownerPubkey ≠ r.ownerPubkey →
        ∃ op, b.transferAssetOps.filter (fun op => op.assetId = assetId) = [op] ∧
          op.signedBy r.ownerPubkey = true ∧ SwapSettled s r op s')
  newNames : ∀ name r', s'.nameRegistry.lookup name = some r' → name ∉ s.nameRegistry →
    ∃ op ∈ b.nameOps, op.name = name ∧ r'.ownerPubkey = op.ownerPubkey ∧ op.signed = true
  newAssets : ∀ assetId r', s'.assetRegistry.lookup assetId = some r' → assetId ∉ s.assetRegistry →
    ∃ op ∈ b.mintOps, op.assetId = assetId ∧ r'.ownerPubkey = op.ownerPubkey ∧ op.signed = true

/-- A transfer that passed the checks has its payments on the chain. -/
theorem swapSettled_of_met {r : AssetRecord P} {op : TransferAssetOp P}
    (hcond : s.conditionMet b op.requiredKernelExcess = true) (hroyalty : s.royaltyMet b r op = true) :
    SwapSettled s r op (s.commitBlock b c).1 := by
  refine ⟨?_, ?_⟩
  · intro e he
    rw [conditionMet, he, Option.all_some] at hcond
    exact mem_kernelExcesses_of_satisfied hcond
  · intro e id collection he hid hcol hbps
    simp only [royaltyMet, he, hid, Option.bind_some, hcol, if_pos hbps,
      Option.any_eq_true] at hroyalty
    obtain ⟨f, hf, hsat⟩ := hroyalty
    exact ⟨f, hf, mem_kernelExcesses_of_satisfied hsat⟩

section Names

variable {height : UInt64} {regs : List (RegisterNameOp P)} {transfers : List (TransferNameOp P)}
  {seen : Finset String} {registry : KeyedMap String (NameRecord P)} {name : String}

theorem NamesWritten.kept (h : NamesWritten s height regs transfers seen registry)
    (hnew : ∀ k ∈ regs.map RegisterNameOp.name, k ∉ s.nameRegistry) {r : NameRecord P}
    (hr : s.nameRegistry.lookup name = some r) : ∃ r', registry.lookup name = some r' ∧
      r'.registeredAtBlock = r.registeredAtBlock ∧
      (r'.ownerPubkey ≠ r.ownerPubkey ∨ r'.resolvesTo ≠ r.resolvesTo →
        ∃ op, transfers.filter (fun op => op.name = name) = [op] ∧
          op.signedBy r.ownerPubkey = true) := by
  rcases h.written.updated_or_kept hnew (Finmap.mem_of_lookup_eq_some hr) with
    ⟨op, hop, rfl, honly⟩ | hsame
  · obtain ⟨current, hcur, hsig, hlookup⟩ := h.transferred op hop
    obtain rfl : current = r := Option.some.inj (hcur.symm.trans hr)
    exact ⟨op.record current, hlookup, rfl, fun _ => ⟨op, honly, hsig⟩⟩
  · refine ⟨r, hsame.trans hr, rfl, ?_⟩
    rintro (hne | hne)
    · exact absurd rfl hne
    · exact absurd rfl hne

end Names

section Assets

variable {collections : KeyedMap String (CollectionRecord P)} {mints : List (MintAssetOp P)}
  {transfers : List (TransferAssetOp P)} {seen : Finset String}
  {registry : KeyedMap String (AssetRecord P)} {assetId : String}

theorem AssetsWritten.kept (h : AssetsWritten s b collections mints transfers seen registry)
    (hnew : ∀ k ∈ mints.map MintAssetOp.assetId, k ∉ s.assetRegistry) {r : AssetRecord P}
    (hr : s.assetRegistry.lookup assetId = some r) : ∃ r', registry.lookup assetId = some r' ∧
      r'.mintedAtBlock = r.mintedAtBlock ∧ r'.metadata = r.metadata ∧
      r'.collectionId = r.collectionId ∧
      (r'.ownerPubkey ≠ r.ownerPubkey →
        ∃ op, transfers.filter (fun op => op.assetId = assetId) = [op] ∧
          op.signedBy r.ownerPubkey = true ∧ SwapSettled s r op (s.commitBlock b c).1) := by
  rcases h.written.updated_or_kept hnew (Finmap.mem_of_lookup_eq_some hr) with
    ⟨op, hop, rfl, honly⟩ | hsame
  · obtain ⟨current, hcur, hsig, hcond, hroyalty, hlookup⟩ := h.transferred op hop
    obtain rfl : current = r := Option.some.inj (hcur.symm.trans hr)
    refine ⟨op.record current, hlookup, rfl, rfl, rfl, ?_⟩
    intro _
    exact ⟨op, honly, hsig, swapSettled_of_met hcond hroyalty⟩
  · exact ⟨r, hsame.trans hr, rfl, rfl, rfl, fun hne => absurd rfl hne⟩

end Assets

/-- **Ownership and swap safety.** Names and assets stay, they change hands by one transfer that the
owner signed and whose payments are on the chain, and new ones belong to whoever signed for them. -/
theorem ownership_safe {δ : AppliedDelta P} (h : s.applyLinearBlock b = some (s', δ)) :
    OwnershipSafe s b s' := by
  -- what the checks have established, and what they have written
  obtain ⟨c, hcheck, hcommit⟩ := applyLinearBlock_eq_some_iff.mp h
  obtain rfl : (s.commitBlock b c).1 = s' := congrArg Prod.fst hcommit
  have hacc := accepted_of_checkBlock hcheck
  have hrec := recorded_of_checkBlock hcheck
  obtain ⟨seenNames, hnames⟩ := hrec.names
  obtain ⟨seenAssets, hassets⟩ := hrec.assets
  refine ⟨?_, ?_, ?_, ?_⟩
  · intro name r hr
    rw [hrec.nameRegistry_eq]
    exact hnames.kept hacc.names.absent hr
  · intro assetId r hr
    rw [hrec.assetRegistry_eq]
    exact hassets.kept hacc.assets.absent hr
  -- a new record comes from a registration in the block
  · intro name r' hr' hname
    rw [hrec.nameRegistry_eq] at hr'
    exact hnames.new hr' hname
  · intro assetId r' hr' hasset
    rw [hrec.assetRegistry_eq] at hr'
    obtain ⟨op, hop, hid, rfl, hsig⟩ := hassets.new hr' hasset
    exact ⟨op, hop, hid, rfl, hsig⟩

end ChainState

namespace Devnet

open ChainState

/-- An asset of the key 3. -/
def relicBlock : Block crypto :=
  mineAssets (linear [genesis]) (coinbase 1 11) []
    [mintOp "relic" 3 (payment (genesisTotalMinted - 1_000_000) 7 3 5)] []

/-- The first reward goes to the key 13, beside the reward of the block. -/
def paidBody : Transaction crypto :=
  ⟨[⟨Commitment.new (P := crypto) (blockRewardAt 1) 11⟩],
    [output (blockRewardAt 1) 13, output (blockRewardAt 2) 12],
    [kernel (11 - 13) 0, kernel (0 - 12) 0]⟩

/-- The key 3 sells to the key 4, against that payment. -/
def relicSale : TransferAssetOp crypto :=
  assetTransferOp "relic" 3 4 (some (Commitment.new (P := crypto) 0 (11 - 13)))

def saleBlock : Block crypto :=
  mineAssets (linear [genesis, relicBlock]) paidBody [] [] [relicSale]

/-- The buyer gives the asset back, and the sale is sent in again. -/
def resaleRun : List (Block crypto) :=
  let sold := [genesis, relicBlock, saleBlock]
  let back := mineAssets (linear sold) (coinbase 3 14) [] [] [assetTransferOp "relic" 4 3 none]
  let again := mineAssets (linear (sold ++ [back])) (coinbase 4 15) [] [] [relicSale]
  sold ++ [back, again]

theorem resaleRun_owners :
    (applyAll resaleRun ChainState.new).isSome = true ∧
      (linear (resaleRun.take 4)).assetOwner "relic" = some (Commitment.new (P := crypto) 0 3) ∧
      (linear resaleRun).assetOwner "relic" = some (Commitment.new (P := crypto) 0 4) := by
  decide +kernel

theorem saleBlock_applied :
    (applyAll [genesis, relicBlock, saleBlock] ChainState.new).isSome = true := by
  obtain ⟨r, hr⟩ := Option.isSome_iff_exists.mp resaleRun_owners.1
  have hsplit : resaleRun = [genesis, relicBlock, saleBlock] ++ resaleRun.drop 3 := rfl
  rw [hsplit, applyAll_append] at hr
  obtain ⟨sold, hsold, -⟩ := Option.bind_eq_some_iff.mp hr
  exact Option.isSome_iff_exists.mpr ⟨sold, hsold⟩

/-- The last of the blocks is accepted on the state that the others lead to. -/
theorem exists_last_of_applyAll {bs : List (Block crypto)} {b : Block crypto}
    (h : (applyAll (bs ++ [b]) ChainState.new).isSome = true) :
    ∃ s' δ, (linear bs).applyLinearBlock b = some (s', δ) := by
  rw [applyAll_append] at h
  obtain ⟨r, hr⟩ := Option.isSome_iff_exists.mp h
  obtain ⟨⟨s, δs⟩, hbs, hlast⟩ := Option.bind_eq_some_iff.mp hr
  obtain ⟨r', hr', -⟩ := Option.map_eq_some_iff.mp hlast
  obtain ⟨⟨s', δ⟩, hb, -⟩ := Option.bind_eq_some_iff.mp hr'
  refine ⟨s', δ, ?_⟩
  rw [linear, hbs]
  exact hb

theorem saleBlock_safe :
    ∃ s' δ, (linear [genesis, relicBlock]).applyLinearBlock saleBlock = some (s', δ) ∧
      OwnershipSafe (linear [genesis, relicBlock]) saleBlock s' := by
  obtain ⟨s', δ, h⟩ := @exists_last_of_applyAll [genesis, relicBlock] _ saleBlock_applied
  exact ⟨s', δ, h, ownership_safe h⟩

end Devnet

/-! ## Whole chains

For whole chains, a block is a round of authorizations in the sense of `Custody`. -/

/-- Transfers of names, as authorizations that move them. -/
def nameCustody (P : Crypto) : Custody.Scheme String (TransferNameOp P) (Commitment P) where
  key := TransferNameOp.name
  newOwner := TransferNameOp.newOwnerPubkey
  signedBy := TransferNameOp.signedBy

@[inherit_doc nameCustody]
def assetCustody (P : Crypto) : Custody.Scheme String (TransferAssetOp P) (Commitment P) where
  key := TransferAssetOp.assetId
  newOwner := TransferAssetOp.newOwnerPubkey
  signedBy := TransferAssetOp.signedBy

namespace ChainState

variable {P : Crypto} {s s' : ChainState P} {b : Block P} {c : Candidate P}

theorem custody_names (hacc : Accepted s b c) (hrec : Recorded s b c) :
    Custody.Step (nameCustody P) s.nameOwner b.transferOps (s.commitBlock b c).1.nameOwner := by
  obtain ⟨seen, hnames⟩ := hrec.names
  refine ⟨?_, ?_, ?_⟩
  · intro op hop
    obtain ⟨current, hcur, hsig, -⟩ := hnames.transferred op hop
    refine ⟨current.ownerPubkey, ?_, hsig⟩
    show (s.nameRegistry.lookup op.name).map _ = _
    rw [hcur, Option.map_some]
  · intro op hop
    obtain ⟨current, -, -, hlookup⟩ := hnames.transferred op hop
    show ((s.commitBlock b c).1.nameRegistry.lookup op.name).map _ = _
    rw [hrec.nameRegistry_eq, hlookup]
    rfl
  · intro name o hname ho
    obtain ⟨r, hr, rfl⟩ := Option.map_eq_some_iff.mp ho
    rcases hnames.written.updated_or_kept hacc.names.absent (Finmap.mem_of_lookup_eq_some hr) with
      ⟨op, hop, rfl, -⟩ | hsame
    · exact absurd (List.mem_map_of_mem hop) hname
    · rw [nameOwner, hrec.nameRegistry_eq, hsame, hr, Option.map_some]

theorem custody_assets (hacc : Accepted s b c) (hrec : Recorded s b c) :
    Custody.Step (assetCustody P) s.assetOwner b.transferAssetOps
      (s.commitBlock b c).1.assetOwner := by
  obtain ⟨seen, hassets⟩ := hrec.assets
  refine ⟨?_, ?_, ?_⟩
  · intro op hop
    obtain ⟨current, hcur, hsig, -⟩ := hassets.transferred op hop
    refine ⟨current.ownerPubkey, ?_, hsig⟩
    show (s.assetRegistry.lookup op.assetId).map _ = _
    rw [hcur, Option.map_some]
  · intro op hop
    obtain ⟨current, -, -, -, -, hlookup⟩ := hassets.transferred op hop
    show ((s.commitBlock b c).1.assetRegistry.lookup op.assetId).map _ = _
    rw [hrec.assetRegistry_eq, hlookup]
    rfl
  · intro assetId o hid ho
    obtain ⟨r, hr, rfl⟩ := Option.map_eq_some_iff.mp ho
    rcases hassets.written.updated_or_kept hacc.assets.absent (Finmap.mem_of_lookup_eq_some hr) with
      ⟨op, hop, rfl, -⟩ | hsame
    · exact absurd (List.mem_map_of_mem hop) hid
    · rw [assetOwner, hrec.assetRegistry_eq, hsame, hr, Option.map_some]

/-- The owners of names and assets as a chain of blocks moves them, the latest block first. -/
structure InCustody (chain : List (Block P)) (s : ChainState P) : Prop where
  names : Custody.Run (nameCustody P) (chain.map Block.transferOps) s.nameOwner
  assets : Custody.Run (assetCustody P) (chain.map Block.transferAssetOps) s.assetOwner

theorem InCustody.applyAll {bs chain : List (Block P)} {δs : List (AppliedDelta P)}
    (hs : InCustody chain s) (h : applyAll bs s = some (s', δs)) :
    InCustody (bs.reverse ++ chain) s' := by
  refine applyAll_induct (motive := fun s chain => InCustody chain s) ?_ hs h
  intro s chain b c hs hcheck
  have hacc := accepted_of_checkBlock hcheck
  have hrec := recorded_of_checkBlock hcheck
  exact ⟨hs.names.step (custody_names hacc hrec), hs.assets.step (custody_assets hacc hrec)⟩

/-- Along the blocks, no transfer hands a name or an asset to an owner whose key verifies a transfer
of it that has been used, that one included. -/
def NothingReturns (bs : List (Block P)) : Prop :=
  Custody.NeverReturns (nameCustody P) (bs.reverse.map Block.transferOps) ∧
    Custody.NeverReturns (assetCustody P) (bs.reverse.map Block.transferAssetOps)

instance (bs : List (Block P)) : Decidable (NothingReturns bs) :=
  inferInstanceAs (Decidable (Custody.NeverReturns (nameCustody P) (bs.reverse.map Block.transferOps) ∧
    Custody.NeverReturns (assetCustody P) (bs.reverse.map Block.transferAssetOps)))

/-- Two blocks share no signed transfer. -/
def DisjointTransfers (b b' : Block P) : Prop :=
  (∀ op ∈ b.transferOps, op ∉ b'.transferOps) ∧
    ∀ op ∈ b.transferAssetOps, op ∉ b'.transferAssetOps

instance (b b' : Block P) : Decidable (DisjointTransfers b b') :=
  inferInstanceAs (Decidable ((∀ op ∈ b.transferOps, op ∉ b'.transferOps) ∧
    ∀ op ∈ b.transferAssetOps, op ∉ b'.transferAssetOps))

/-- **Signed transfers are single use** on every chain along which nothing returns to an owner whose
key verifies a transfer that has been used for it. -/
theorem transfers_single_use {bs : List (Block P)} {δs : List (AppliedDelta P)}
    (h : applyAll bs ChainState.new = some (s', δs)) (hno : NothingReturns bs) :
    bs.Pairwise DisjointTransfers := by
  have hstart : InCustody [] (ChainState.new : ChainState P) := ⟨.start _, .start _⟩
  have hrun := hstart.applyAll h
  rw [List.append_nil] at hrun
  have hnames := Custody.single_use hrun.names hno.1
  have hassets := Custody.single_use hrun.assets hno.2
  rw [List.pairwise_map, List.pairwise_reverse] at hnames hassets
  apply (hnames.and hassets).imp
  rintro b b' ⟨hn, ha⟩
  exact ⟨fun op hop hop' => hn op hop' hop, fun op hop hop' => ha op hop' hop⟩

end ChainState

namespace Devnet

open ChainState

theorem saleBlock_single_use :
    ∃ s' δs, applyAll [genesis, relicBlock, saleBlock] ChainState.new = some (s', δs) ∧
      [genesis, relicBlock, saleBlock].Pairwise DisjointTransfers := by
  have hno : NothingReturns [genesis, relicBlock, saleBlock] := by decide +kernel
  obtain ⟨⟨s', δs⟩, h⟩ := Option.isSome_iff_exists.mp saleBlock_applied
  exact ⟨s', δs, h, transfers_single_use h hno⟩

/-- The signed sale takes effect twice, against one payment. -/
theorem resale_replays :
    (applyAll resaleRun ChainState.new).isSome = true ∧ ¬ resaleRun.Pairwise DisjointTransfers ∧
      (linear (resaleRun.take 4)).assetOwner "relic" = some (Commitment.new (P := crypto) 0 3) ∧
      (linear resaleRun).assetOwner "relic" = some (Commitment.new (P := crypto) 0 4) := by
  have htwice : ¬ resaleRun.Pairwise DisjointTransfers := by decide +kernel
  exact ⟨resaleRun_owners.1, htwice, resaleRun_owners.2⟩

end Devnet

end Haze
