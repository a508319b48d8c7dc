import Haze.Chain.Headers
import Haze.Chain.Pruning
import Haze.Chain.Range

/-!
# What a tip stands for, and what is served from it

A node whose store has its chain serves ranges of it, pruned or not: each block that it serves is one
higher than the block whose hash it names, and the last of them is the tip when there are no more
(`Rooted.servesRange`). To follow such blocks a node needs less than a chain of its own. Its height has to be
that of the header that its tip is the hash of (`Anchored`), as it is in every reachable state, and still
is after a snapshot that names a block of a peer's chain.
-/

namespace Haze

namespace ChainState

variable {P : Crypto} {H : BlockHeader P → Prop} {s p : ChainState P} {b : Block P}
  {chain : List (Block P)}

/-! ## The tip after a block

Whether it extends the tip or ends a fork, a block that is applied is the new tip. -/

/-- A fork ends with the block that it was looked up for. -/
theorem getLast?_reorgWalk {walkFuel fuel : ℕ} {hash : Bytes32} {acc fork : List (Block P)}
    {hashes : List Bytes32} (hacc : acc.getLast? = some b)
    (h : s.reorgWalk walkFuel fuel hash acc = some (hashes, fork)) : fork.getLast? = some b := by
  induction fuel generalizing hash acc with
  | zero => cases h
  | succ fuel ih =>
      unfold reorgWalk at h
      split at h
      · cases h
      split at h
      · cases h
        exact hacc
      split at h
      next parent _ =>
        refine ih ?_ h
        rw [List.getLast?_cons, hacc, Option.getD_some]
      next => cases h

/-- A block that is applied is the tip afterwards, on whatever fork it is. -/
theorem tip_of_applied (h : (s.applyBlock b).2.isApplied = true) :
    (s.applyBlock b).1.lastBlockHash = b.hash ∧ (s.applyBlock b).1.currentHeight = b.height := by
  have houtcome := outcome_applyBlock s b
  generalize s.applyBlock b = r at h houtcome ⊢
  cases houtcome with
  | invalid _ => cases h
  | refused _ => cases h
  -- on top of the tip
  | linear _ happly =>
      obtain ⟨c, -, hcommit⟩ := applyLinearBlock_eq_some_iff.mp happly
      obtain rfl := congrArg Prod.fst hcommit
      exact ⟨rfl, rfl⟩
  -- at the end of a fork, whose blocks are applied one after another
  | @reorg hashes fork s₁ s₂ _ _ _ _ hpath _ happly =>
      have hlast : fork.getLast? = some b := getLast?_reorgWalk rfl hpath
      have htip : ∀ x ∈ (fork.reverse ++ []).head?, s₂.lastBlockHash = x.hash ∧
          s₂.currentHeight = x.height := by
        apply applyAll_induct (motive := fun s chain => ∀ x ∈ chain.head?, s.lastBlockHash = x.hash ∧
          s.currentHeight = x.height) ?_ ?_ happly
        · intro s chain b c _ _ x hx
          cases hx
          exact ⟨rfl, rfl⟩
        · simp
      rw [List.append_nil, List.head?_reverse, hlast] at htip
      exact htip b rfl

/-! ## Anchored tips

The tip may be a block of the chain, or a snapshot that has been adopted, of which the node only has the
header. Either way its hash is that of a header that stands at the height of the tip. -/

/-- The tip is the hash of a header of `H` at the height of the chain, or there is no block. -/
def Anchored (H : BlockHeader P → Prop) (s : ChainState P) : Prop :=
  (s.lastBlockHash = zeroHash ∧ s.currentHeight = 0) ∨
    ∃ h, H h ∧ h.hash = s.lastBlockHash ∧ h.height = s.currentHeight

theorem Rooted.anchored (h : Rooted H s) : Anchored H s := by
  obtain ⟨chain, hheaded, hlinked⟩ := h
  cases chain with
  | nil => exact .inl ⟨hlinked.1, UInt64.toNat_inj.mp hlinked.2⟩
  | cons top rest =>
      obtain ⟨hlookup, hheight, -⟩ := hlinked
      obtain ⟨hkey, hH⟩ := hheaded _ _ hlookup
      exact .inr ⟨top.header, hH, hkey, UInt64.toNat_inj.mp hheight⟩

theorem Anchored.of_tip {s' : ChainState P} (h : Anchored H s)
    (htip : s'.lastBlockHash = s.lastBlockHash) (hheight : s'.currentHeight = s.currentHeight) :
    Anchored H s' := by
  unfold Anchored
  rw [htip, hheight]
  exact h

theorem Anchored.applyBlock (h : Anchored H s) (hb : H b.header) : Anchored H (s.applyBlock b).1 := by
  cases happlied : (s.applyBlock b).2.isApplied with
  | true =>
      obtain ⟨htip, hheight⟩ := tip_of_applied happlied
      exact .inr ⟨b.header, hb, htip.symm, hheight.symm⟩
  | false =>
      have houtcome := outcome_applyBlock s b
      generalize s.applyBlock b = r at happlied houtcome ⊢
      cases houtcome with
      | invalid _ => exact h
      | refused _ => exact h.of_tip rfl rfl
      | linear _ _ => cases happlied
      | reorg _ _ _ _ _ => cases happlied

/-! ## Blocks on top of a header

A block is on top of a header when it names its hash; then it is one higher. -/

/-- The block is one higher than what it names as the block before it, be that a header of `H` or no
block at all. -/
structure OnTop (H : BlockHeader P → Prop) (b : Block P) : Prop where
  header : H b.header
  follows : ∀ h, H h → b.header.prevHash = h.hash → b.height.toNat = h.height.toNat + 1
  first : b.header.prevHash = zeroHash → b.height.toNat = 1

/-- On top of an anchored tip a block has the next height. -/
theorem OnTop.height_eq (h : OnTop H b) (hs : Anchored H s)
    (hprev : b.header.prevHash = s.lastBlockHash) :
    b.height.toNat = s.currentHeight.toNat + 1 := by
  rcases hs with ⟨hzero, hheight⟩ | ⟨hd, hH, hhash, hheight⟩
  · rw [hheight]
    exact h.first (hprev.trans hzero)
  · rw [← hheight]
    exact h.follows hd hH (hprev.trans hhash.symm)

/-- So are the blocks of a chain, but for one of height zero. -/
theorem Rests.onTop {tip : Bytes32} {height : UInt64} {blocks : KeyedMap Bytes32 (Block P)}
    (hH : DistinctHeaders H) (h : Rests H blocks tip height chain) (hb : b ∈ chain)
    (hpos : b.height ≠ 0) : OnTop H b := by
  obtain ⟨top, rest, rfl⟩ := List.append_of_mem hb
  have hheader : H b.header :=
    (h.headed _ _ (h.linked.lookup_eq h.headed b (by simp))).2
  obtain ⟨-, -, hrest⟩ := h.linked.suffix h.headed
  have hne : (blockLinks P).height b ≠ 0 := fun h0 => hpos (UInt64.toNat_inj.mp h0)
  rw [if_neg hne] at hrest
  have hbelow : (blockLinks P).Linked blocks b.header.prevHash (b.height.toNat - 1) rest := hrest
  have hpos' : b.height.toNat ≠ 0 := hne
  refine ⟨hheader, ?_, ?_⟩
  -- the header it names is that of the next block down the chain
  · intro hd hHd hprev
    cases rest with
    | nil => exact absurd (hprev.symm.trans hbelow.1) (hH.proper hd hHd)
    | cons x rest =>
        obtain ⟨hlookup, hheight, -⟩ := hbelow
        obtain ⟨hkey, hx⟩ := h.headed _ _ hlookup
        obtain rfl : x.header = hd := hH.inj _ _ hx hHd (hkey.trans hprev)
        have hheight' : x.header.height.toNat = b.height.toNat - 1 := hheight
        omega
  -- below the root there is nothing, so the block would be of height zero
  · intro hzero
    rw [hzero] at hbelow
    obtain rfl := hbelow.eq_nil (h.headed.lookup_root hH)
    have hlast := hbelow.2
    omega

/-! ## What is served

The blocks of a batch come from the active chain, oldest first, as many as fit, and the node says whether
there are more. -/

/-- A path that ends at the root, above which there is no node of height zero, has one node for each
height down to one. -/
theorem le_length_of_linked {blocks : KeyedMap Bytes32 (Block P)} {k : Bytes32} {n : ℕ}
    (h : (blockLinks P).Linked blocks k n chain) : n ≤ chain.length := by
  induction chain generalizing k n with
  | nil => exact h.2.le
  | cons b rest ih =>
      obtain ⟨-, -, hrest⟩ := h
      split at hrest
      next h0 => omega
      next h0 =>
        have := ih hrest
        rw [List.length_cons]
        omega

/-- A range of the chain of a node: its blocks, and whether there are more. -/
structure ServesRange (H : BlockHeader P → Prop) (p : ChainState P) (fromHeight : UInt64)
    (blocks : List (Block P)) (hasMore : Bool) : Prop where
  mem : ∀ b ∈ blocks, b ∈ p.activeChain
  onTop : ∀ b ∈ blocks, OnTop H b
  more : hasMore = true → ∃ last, blocks.getLast? = some last ∧ last.height < p.currentHeight
  all : hasMore = false → ∀ last ∈ blocks.getLast?, last.hash = p.lastBlockHash
  some : fromHeight ≤ p.currentHeight → blocks ≠ []

/-- **What a node serves**, from any height but zero. -/
theorem Rooted.servesRange {fromHeight : UInt64} {limit : ℕ} (hH : DistinctHeaders H) (h : Rooted H p)
    (hfrom : fromHeight ≠ 0) (hlimit : limit ≠ 0) :
    ServesRange H p fromHeight (p.getBlocksFrom fromHeight limit).1
      (p.getBlocksFrom fromHeight limit).2 := by
  obtain ⟨chain, hrests⟩ := h
  have hlinked := hrests.linked
  have hpos : fromHeight.toNat ≠ 0 := fun h0 => hfrom (UInt64.toNat_inj.mp h0)
  have hlen := hlinked.length_le hrests.headed
  have hlong := le_length_of_linked hlinked
  -- the chain from that height on, oldest first, and cut off
  have hserves : p.getBlocksFrom fromHeight limit =
      ((chain.take (p.currentHeight.toNat + 1 - fromHeight.toNat)).reverse.take limit,
        decide (limit < p.currentHeight.toNat + 1 - fromHeight.toNat)) := by
    have htake : min (p.currentHeight.toNat + 1 - fromHeight.toNat) chain.length =
        p.currentHeight.toNat + 1 - fromHeight.toNat := by omega
    rw [getBlocksFrom, collectFrom_eq (hrests.headed.lookup_root hH) hlinked (Nat.lt_succ_of_le hlen),
      takeWhile_height hlinked hfrom, List.length_reverse, List.length_take, htake]
  have hheights : ∀ b ∈ chain.takeWhile (fun b => decide (fromHeight ≤ b.height)),
      fromHeight ≤ b.height := fun b hb => by simpa using List.all_eq_true.mp List.all_takeWhile b hb
  rw [takeWhile_height hlinked hfrom] at hheights
  have hmem : ∀ b ∈ (p.getBlocksFrom fromHeight limit).1,
      b ∈ chain.take (p.currentHeight.toNat + 1 - fromHeight.toNat) := by
    intro b hb
    rw [hserves] at hb
    exact List.mem_reverse.mp (List.mem_of_mem_take hb)
  generalize hk : p.currentHeight.toNat + 1 - fromHeight.toNat = k at hserves hheights hmem
  refine ⟨?_, ?_, ?_, ?_, ?_⟩
  · intro b hb
    rw [hrests.activeChain_eq hH]
    exact List.mem_of_mem_take (hmem b hb)
  · intro b hb
    refine hrests.onTop hH (List.mem_of_mem_take (hmem b hb)) ?_
    intro h0
    have hle := UInt64.le_iff_toNat_le.mp (hheights b (hmem b hb))
    rw [h0] at hle
    simp only [UInt64.toNat_zero] at hle
    omega
  · -- the last block served stands `k - limit` below the tip
    intro hmore
    rw [hserves, decide_eq_true_eq] at hmore
    have hlast : chain[k - limit]? = (p.getBlocksFrom fromHeight limit).1.getLast? := by
      rw [hserves, List.take_reverse, List.getLast?_reverse, List.head?_drop, List.length_take,
        List.getElem?_take_of_lt (by omega)]
      congr 1
      omega
    have hlt : k - limit < chain.length := by omega
    rw [List.getElem?_eq_getElem hlt] at hlast
    refine ⟨_, hlast.symm, ?_⟩
    have hdrop := List.drop_eq_getElem_cons hlt
    have hheight : chain[k - limit].height.toNat + (k - limit) = p.currentHeight.toNat :=
      hlinked.height_of_drop hdrop
    rw [UInt64.lt_iff_toNat_lt]
    omega
  -- nothing is left out, so the last one is the tip
  · intro hall last hlast
    rw [hserves, decide_eq_false_iff_not, Nat.not_lt] at hall
    have hshort : (chain.take k).reverse.length ≤ limit := by
      rw [List.length_reverse, List.length_take]
      omega
    rw [hserves, List.take_of_length_le hshort, List.getLast?_reverse] at hlast
    cases chain with
    | nil => simp at hlast
    | cons top rest =>
        cases k with
        | zero => cases hlast
        | succ k =>
            obtain rfl : top = last := Option.some.inj hlast
            exact (hrests.headed _ _ hlinked.1).1
  · intro hle hnil
    rw [UInt64.le_iff_toNat_le] at hle
    rw [hserves] at hnil
    have hzero := congrArg List.length hnil
    rw [List.length_take, List.length_reverse, List.length_take, List.length_nil] at hzero
    omega

end ChainState

end Haze
