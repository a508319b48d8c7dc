import Haze.Chain.Delivery
import Haze.Wallet.Restore

/-!
# A scan while blocks arrive (`api/src/explorer.rs`)

`GET /v1/scan-outputs` walks the active chain in chunks of 500 blocks. Between two chunks it holds no lock,
and blocks are applied: the tip moves, and a reorganization may take off blocks that were read. The walk
goes on from the hash it has come to. It is not disturbed, as long as nothing is pruned: a stored block
stays as it is, so the chain below a hash does too.
-/

namespace Haze

variable {P : Crypto}

namespace ChainState

/-- One `apply_block` after another. -/
def applyBlocks (s : ChainState P) (bs : List (Block P)) : ChainState P :=
  bs.foldl (fun s b => (s.applyBlock b).1) s

variable {D : Block P → Prop} {s : ChainState P} {chain : List (Block P)} {bs : List (Block P)}

theorem Tracks.applyBlock {b : Block P} (hD : DistinctHashes D) (h : Tracks D s chain) (hb : D b) :
    ∃ chain', Tracks D (s.applyBlock b).1 chain' := by
  obtain ⟨chain', htracks, -⟩ := h.applyBlock_induct (motive := fun _ _ => True) (Q := fun _ _ => True) hD
    hb trivial deliveryApplies_true (fun _ _ _ => trivial) (fun _ _ _ _ _ => trivial)
    (fun _ _ _ _ => trivial)
  exact ⟨chain', htracks⟩

/-- Applying blocks keeps every stored block. -/
theorem Tracks.applyBlocks (hD : DistinctHashes D) (h : Tracks D s chain) (hbs : ∀ b ∈ bs, D b) :
    (∃ chain', Tracks D (s.applyBlocks bs) chain') ∧
      ∀ k x, s.blocks.lookup k = some x → (s.applyBlocks bs).blocks.lookup k = some x := by
  induction bs generalizing s chain with
  | nil => exact ⟨⟨chain, h⟩, fun _ _ hx => hx⟩
  | cons b bs ih =>
      obtain ⟨hb, hbs⟩ := List.forall_mem_cons.mp hbs
      obtain ⟨chain', htracks⟩ := h.applyBlock hD hb
      obtain ⟨hrest, hkeep⟩ := ih htracks hbs
      exact ⟨hrest, fun k x hx => hkeep k x (h.lookup_applyBlock hD hb (.inl hx))⟩

end ChainState

open ChainState

/-! ## The rounds

The lock is taken for one chunk at a time, and blocks may be applied between two chunks. The loop goes on
from a block hash, so what it reads is the chain below that hash, whether or not it is still the active one.
-/

/-- The loop over chunks from a round on. The blocks of `arriving round` are applied while the lock is free
before the chunk of that round. `none` is a loop that has not ended. -/
def scanRounds (arriving : ℕ → List (Block P)) :
    ℕ → ℕ → ChainState P → Bytes32 → Option (List (Block P))
  | 0, _, _, _ => none
  | fuel + 1, round, s, cursor =>
      let s := s.applyBlocks (arriving round)
      let (chunk, nextCursor) := scanChunk s.blocks scanChunkSize cursor
      if chunk.isEmpty then some []
      else
        match nextCursor with
        | some next => (scanRounds arriving fuel (round + 1) s next).map (chunk ++ ·)
        | none => some chunk

/-- `handle_scan_outputs`, started on `s`. -/
def handleScanOutputsWhile (arriving : ℕ → List (Block P)) (fuel : ℕ) (s : ChainState P) :
    Option (List ScanEntry) :=
  (scanRounds arriving fuel 0 s s.lastBlockHash).map fun blocks =>
    ((blocks.flatMap Block.allOutputs).filter fun o => !o.note.isEmpty).map Output.scanEntry

section Rounds

variable {D : Block P → Prop} {s : ChainState P} {chain rest : List (Block P)} {n fuel : ℕ}
  {cursor : Bytes32} {arriving : ℕ → List (Block P)}

/-- One round reads the next 500 blocks of the chain below the cursor, whatever has arrived. -/
theorem scanRounds_of_linked (hD : DistinctHashes D) (harriving : ∀ i, ∀ b ∈ arriving i, D b)
    (htracks : Tracks D s chain) (h : (blockLinks P).Linked s.blocks cursor n rest)
    (hfuel : rest.length < fuel) (round : ℕ) :
    scanRounds arriving fuel round s cursor = some rest := by
  induction fuel generalizing round s chain cursor n rest with
  | zero => cases hfuel
  | succ fuel ih =>
      obtain ⟨⟨chain', htracks'⟩, hkeep⟩ := htracks.applyBlocks hD (harriving round)
      have hroot := htracks'.keyed.lookup_root hD
      obtain ⟨next, hchunk, hend, hnext⟩ := scanChunk_of_linked hroot (h.mono hkeep) scanChunkSize
      rw [scanRounds, hchunk]
      dsimp only
      cases rest with
      | nil => rfl
      | cons b rest =>
          rw [if_neg (by simp [scanChunkSize])]
          cases next with
          | none =>
              -- the chunk ends with the genesis block
              have hall := List.take_append_drop scanChunkSize (b :: rest)
              rw [hend rfl, List.append_nil] at hall
              exact congrArg some hall
          | some c =>
              obtain ⟨m, hlinked⟩ := hnext c rfl
              have hlength : ((b :: rest).drop scanChunkSize).length < fuel := by
                rw [List.length_drop, scanChunkSize, List.length_cons] at *
                omega
              dsimp only
              rw [ih htracks' hlinked hlength (round + 1), Option.map_some, List.take_append_drop]

/-- **A scan is complete**, whatever blocks are applied while it runs. It ends, and returns the outputs with
a note of the blocks from the tip it started at down to the first one, each block once. -/
theorem scan_complete {bs : List (Block P)} (hD : DistinctHashes D) (hbs : ∀ b ∈ bs, D b)
    (harriving : ∀ i, ∀ b ∈ arriving i, D b) :
    (blockLinks P).Linked (deliver bs).blocks (deliver bs).lastBlockHash
        (deliver bs).currentHeight.toNat (deliver bs).activeChain ∧
      (deliver bs).activeChain.Nodup ∧
      ∀ fuel, (deliver bs).activeChain.length < fuel →
        handleScanOutputsWhile arriving fuel (deliver bs) =
          some ((((deliver bs).activeChain.flatMap Block.allOutputs).filter
            fun o => !o.note.isEmpty).map Output.scanEntry) := by
  obtain ⟨⟨chain, htracks⟩, -⟩ := Tracks.new.applyBlocks hD hbs
  have htracks : Tracks D (deliver bs) chain := htracks
  rw [htracks.activeChain_eq hD]
  refine ⟨htracks.linked, List.Nodup.of_map _ (htracks.linked.nodup htracks.keyed), ?_⟩
  intro fuel hfuel
  rw [handleScanOutputsWhile, scanRounds_of_linked hD harriving htracks htracks.linked hfuel 0,
    Option.map_some]

end Rounds

namespace Devnet

def notedOutput : Output crypto :=
  { output (blockRewardAt 1) 11 with note := [7] }

/-- A block whose coinbase has a note. -/
@[irreducible] def notedBlock : Block crypto :=
  mine (deliver [genesis]) { coinbase 1 11 with outputs := [notedOutput] }

/-- A fork of two blocks arrives before the first chunk. -/
def forkArrives (round : ℕ) : List (Block crypto) :=
  if round = 0 then [rivalBlock, secondBlock] else []

/-- The block with the note has left the chain by the time it is read, and is served. -/
theorem scan_during_fork :
    notedBlock.hash ∉
        ((deliver [genesis, notedBlock]).applyBlocks (forkArrives 0)).activeChain.map Block.hash ∧
      handleScanOutputsWhile forkArrives 3 (deliver [genesis, notedBlock]) =
        some [notedOutput.scanEntry] := by
  have hrun : (zeroHash :: [genesis, notedBlock, rivalBlock, secondBlock].map Block.hash).Nodup ∧
      notedBlock.hash ∉
        ((deliver [genesis, notedBlock]).applyBlocks (forkArrives 0)).activeChain.map Block.hash ∧
      (deliver [genesis, notedBlock]).activeChain.length < 3 ∧
      (((deliver [genesis, notedBlock]).activeChain.flatMap Block.allOutputs).filter
        fun o => !o.note.isEmpty).map Output.scanEntry = [notedOutput.scanEntry] := by
    decide +kernel
  obtain ⟨hnodup, hgone, hshort, hserved⟩ := hrun
  refine ⟨hgone, ?_⟩
  rw [← hserved]
  refine (scan_complete (distinctHashes_of_nodup hnodup) ?_ ?_).2.2 3 hshort
  · intro b hb
    exact List.mem_append_left [rivalBlock, secondBlock] hb
  · intro i b hb
    unfold forkArrives at hb
    split at hb
    · exact List.mem_append_right [genesis, notedBlock] hb
    · cases hb

end Devnet

end Haze
