import Haze.Chain.Horizon
import Haze.Proposer.Round
import Haze.Wallet.Recovery

/-!
# Restoring from a node that prunes

`GET /v1/scan-outputs` serves the outputs of the active chain, spent or not, and the next index of a
restored wallet comes from the ones it finds its own. But not all outputs that were mined are there. What
one transaction of a block creates and another of the same block spends is cut through and never stored,
and `compact` takes out what was spent long ago. An index that only such outputs had is given out again.

A node that gets the blocks of one chain, with passes of `compact` in between, is followed together with
the transactions that were mined. If each step leaves an output of the wallet with an index at least as
high as those it takes away, the next index is new.
-/

namespace Haze

variable {P : Crypto} {N : NoteCrypto P}

/-! ## The scan (`api/src/explorer.rs`)

The node walks down from its tip, 500 blocks at a time, so that it holds its lock only briefly. Each chunk
says where the next one starts. Served are the outputs that the stored blocks still have, with the payments
of their registrations and mints. -/

/-- `all_outputs`. -/
def Block.allOutputs (b : Block P) : List (Output P) :=
  b.body.outputs ++ b.nameOps.flatMap (fun op => op.feePayment.outputs) ++
    b.mintOps.flatMap fun op => op.feePayment.outputs

def scanChunkSize : ℕ := 500

/-- The blocks of one chunk, and where the next one starts if the genesis block was not met. -/
def scanChunk (blocks : KeyedMap Bytes32 (Block P)) : ℕ → Bytes32 → List (Block P) × Option Bytes32
  | 0, hash => ([], some hash)
  | n + 1, hash =>
      match blocks.lookup hash with
      | none => ([], some hash)
      | some b =>
          if b.height = 0 then ([b], none)
          else
            let (chunk, next) := scanChunk blocks n b.header.prevHash
            (b :: chunk, next)

/-- The loop over chunks. -/
def scanBlocks (blocks : KeyedMap Bytes32 (Block P)) : ℕ → Bytes32 → List (Block P)
  | 0, _ => []
  | fuel + 1, cursor =>
      let (chunk, nextCursor) := scanChunk blocks scanChunkSize cursor
      if chunk.isEmpty then []
      else
        match nextCursor with
        | some next => chunk ++ scanBlocks blocks fuel next
        | none => chunk

/-- `handle_scan_outputs`, on a chain that stays as it is between the chunks. A chain of height `n` has at
most `n + 1` blocks, and so at most as many chunks. -/
def handleScanOutputs (s : ChainState P) : List ScanEntry :=
  (((scanBlocks s.blocks (s.currentHeight.toNat + 1) s.lastBlockHash).flatMap Block.allOutputs).filter
    fun o => !o.note.isEmpty).map Output.scanEntry

section Scan

variable {blocks : KeyedMap Bytes32 (Block P)} {hash : Bytes32} {n : ℕ} {chain : List (Block P)}

/-- A chunk of a chain is its first part, and the next one starts where the chain goes on. -/
theorem scanChunk_of_linked (hroot : blocks.lookup zeroHash = none)
    (h : (blockLinks P).Linked blocks hash n chain) (k : ℕ) :
    ∃ next, scanChunk blocks k hash = (chain.take k, next) ∧ (next = none → chain.drop k = []) ∧
      ∀ c, next = some c → ∃ m, (blockLinks P).Linked blocks c m (chain.drop k) := by
  induction k generalizing hash n chain with
  | zero =>
      refine ⟨some hash, rfl, (fun hnone => nomatch hnone), ?_⟩
      rintro c ⟨⟩
      exact ⟨n, h⟩
  | succ k ih =>
      cases chain with
      | nil =>
          refine ⟨some hash, ?_, (fun _ => rfl), ?_⟩
          · obtain ⟨rfl, -⟩ := h
            show scanChunk blocks (k + 1) zeroHash = _
            rw [scanChunk, hroot]
            rfl
          · rintro c ⟨⟩
            exact ⟨n, h⟩
      | cons b rest =>
          obtain ⟨hlookup, hheight, hrest⟩ := h
          have hheight : b.height.toNat = n := hheight
          rw [scanChunk, hlookup]
          dsimp only
          by_cases h0 : b.height = 0
          · have hn : n = 0 := by
              rw [← hheight, h0]
              rfl
            rw [if_pos hn] at hrest
            subst hrest
            refine ⟨none, ?_, (fun _ => by rw [List.drop_succ_cons, List.drop_nil]), fun c hc => nomatch hc⟩
            rw [if_pos h0, List.take_succ_cons, List.take_nil]
          · have hn : n ≠ 0 := by
              rintro rfl
              exact h0 (UInt64.toNat_inj.mp hheight)
            rw [if_neg hn] at hrest
            obtain ⟨next, hchunk, hend, hnext⟩ := ih hrest
            have hchunk : scanChunk blocks k b.header.prevHash = (rest.take k, next) := hchunk
            rw [if_neg h0, hchunk]
            exact ⟨next, rfl, hend, hnext⟩

/-- The chunks make up the chain. -/
theorem scanBlocks_of_linked (hroot : blocks.lookup zeroHash = none)
    (h : (blockLinks P).Linked blocks hash n chain) {fuel : ℕ} (hfuel : chain.length ≤ fuel) :
    scanBlocks blocks fuel hash = chain := by
  induction fuel generalizing hash n chain with
  | zero => exact (List.eq_nil_of_length_eq_zero (Nat.le_zero.mp hfuel)).symm
  | succ fuel ih =>
      obtain ⟨next, hchunk, hend, hnext⟩ := scanChunk_of_linked hroot h scanChunkSize
      rw [scanBlocks, hchunk]
      dsimp only
      cases chain with
      | nil => rfl
      | cons b rest =>
          rw [if_neg (by simp [scanChunkSize])]
          cases next with
          | none =>
              have hall := List.take_append_drop scanChunkSize (b :: rest)
              rw [hend rfl, List.append_nil] at hall
              exact hall
          | some c =>
              obtain ⟨m, hlinked⟩ := hnext c rfl
              have hlength : ((b :: rest).drop scanChunkSize).length ≤ fuel := by
                rw [List.length_drop, scanChunkSize]
                omega
              dsimp only
              rw [ih hlinked hlength, List.take_append_drop]

end Scan

section Served

variable {H : BlockHeader P → Prop} {s : ChainState P} {chain : List (Block P)}

/-- What a node serves are the outputs of its active chain that have a note. -/
theorem handleScanOutputs_eq (hH : ChainState.DistinctHeaders H)
    (h : ChainState.Rests H s.blocks s.lastBlockHash s.currentHeight chain) :
    handleScanOutputs s =
      ((chain.flatMap Block.allOutputs).filter fun o => !o.note.isEmpty).map Output.scanEntry := by
  rw [handleScanOutputs,
    scanBlocks_of_linked (h.headed.lookup_root hH) h.linked h.linked.length_le_height]

end Served

/-! ## What is mined and what is served

What a wallet has used is asked of everything that was mined, and what it finds is only what is served. The
difference is what a block's own transactions spend of one another, which no stored block ever had, and what
pruning has taken out since. -/

/-- A block with the transactions it was made of. The body is their cut-through, with a coinbase; in the
genesis block there are no transactions. -/
structure Mined (P : Crypto) where
  txs : List (Transaction P)
  minted : List (Output P)
  block : Block P
  outputs : block.body.outputs = (aggregateAndCutThrough txs).outputs ++ minted

namespace Mined

/-- All outputs of what was mined, also those that were cut through. -/
def created (m : Mined P) : List (Output P) :=
  m.txs.flatMap Transaction.outputs ++ m.minted ++ m.block.payments.flatMap Transaction.outputs

/-- What a proposer makes of its mempool. -/
def ofRound (e : Proposer.Env P) (s : ChainState P) (mempool : Mempool P) (validator : Validator P) :
    Mined P where
  txs := mempool.selectedTxs
  minted := [⟨Commitment.new (Proposer.coinbaseValue (Proposer.nextHeight s) (Proposer.drain mempool).1.tx)
      (e.coinbaseBlinding (Proposer.nextHeight s)),
    e.prove (Proposer.coinbaseValue (Proposer.nextHeight s) (Proposer.drain mempool).1.tx)
      (e.coinbaseBlinding (Proposer.nextHeight s)),
    e.coinbaseNote (Proposer.nextHeight s).toUInt32
      (Proposer.coinbaseValue (Proposer.nextHeight s) (Proposer.drain mempool).1.tx)⟩]
  block := Proposer.assembleBlock e s (Proposer.drain mempool).1 validator
  outputs := by
    have htx : (Proposer.drain mempool).1.tx.outputs =
        (aggregateAndCutThrough mempool.selectedTxs).outputs := by
      rw [Proposer.drain_eq]
      show (mempool.aggregate.1.getD ⟨[], [], []⟩).outputs = _
      unfold Mempool.aggregate
      split
      next hempty =>
        have hnil : mempool.selectedTxs = [] := by
          simp [Mempool.selectedTxs, Queue.byFee, List.isEmpty_iff.mp hempty]
        rw [hnil]
        rfl
      · rfl
    rw [← htx]
    rfl

end Mined

section Wallet

variable (N) (keystore : Keystore)

/-- The output is of the wallet, at this index. -/
def Owns (o : Output P) (index : UInt32) : Prop :=
  ∃ value, o.scanEntry.Holds N (keystore.noteKey N.toWalletCrypto)
    (keystore.deriveBlinding N.toWalletCrypto) index value

/-- The wallet has used the index in a transaction that was mined. -/
def Used (history : List (Mined P)) (index : UInt32) : Prop :=
  ∃ m ∈ history, ∃ o ∈ m.created, Owns N keystore o index

end Wallet

/-- The output is in a block of the active chain. -/
def Served (s : ChainState P) (o : Output P) : Prop :=
  ∃ b ∈ s.activeChain, o ∈ b.allOutputs

/-- `compact` leaves the output in its block: it is of the payment of a mint, which is never pruned, or it is
a coin, or the block is not old, or no stored block spends it deep enough. -/
def Stays (s : ChainState P) (horizon : UInt64) (b : Block P) (o : Output P) : Prop :=
  o ∈ b.mintOps.flatMap (fun op => op.feePayment.outputs) ∨ o.commitment ∈ s.utxos ∨
    saturatingSub s.currentHeight horizon ≤ b.height ∨
    ∀ hash d, s.blocks.lookup hash = some d → o.commitment ∈ d.prunableSpent →
      s.currentHeight < d.height + horizon

/-! ## The node

A node that extends one chain and prunes it now and then, at any horizon and in any order of its blocks. The
history is not part of the node: it keeps what was mined for the property to speak of. -/

def ApplyResult.isLinear : ApplyResult P → Bool
  | .linear _ => true
  | _ => false

theorem ApplyResult.exists_linear {r : ApplyResult P} (h : r.isLinear = true) : ∃ δ, r = .linear δ := by
  cases r with
  | linear δ => exact ⟨δ, rfl⟩
  | rejected => cases h
  | reorg _ _ => cases h

/-- A node, and the blocks it has got, the newest first. -/
structure Service (P : Crypto) where
  node : ChainState P
  history : List (Mined P)

inductive ServiceOp (P : Crypto) where
  | block (m : Mined P)
  | compact (order : List Bytes32) (horizon : UInt64)

namespace Service

variable (σ : Service P)

def start : Service P := ⟨ChainState.new, []⟩

def step : ServiceOp P → Service P
  | .block m => ⟨(σ.node.applyBlock m.block).1, m :: σ.history⟩
  | .compact order horizon => ⟨(σ.node.compact order horizon).1, σ.history⟩

def run (ops : List (ServiceOp P)) : Service P :=
  ops.foldl step start

/-- The blocks are those of one chain, with headers of `H`. -/
def Extends (H : BlockHeader P → Prop) : ServiceOp P → Prop
  | .block m => H m.block.header ∧ ∃ δ, (σ.node.applyBlock m.block).2 = .linear δ
  | .compact _ _ => True

/-- The step takes away no output of the wallet without leaving one whose index is at least as high. In a
block, what its own transactions spend is taken away; the coinbase and the outputs of its registrations and
mints are there to stay. -/
def Leaves (N : NoteCrypto P) (keystore : Keystore) : ServiceOp P → Prop
  | .block m => ∀ o ∈ m.txs.flatMap Transaction.outputs, ∀ index, Owns N keystore o index →
      ∃ o' index', Owns N keystore o' index' ∧ index ≤ index' ∧
        (o' ∈ m.txs.flatMap Transaction.outputs ∧ o'.commitment ∉ m.txs.flatMap Transaction.spent ∨
          o' ∈ m.minted ++ m.block.payments.flatMap Transaction.outputs ∨ Served σ.node o')
  | .compact _ horizon => ∀ o, Served σ.node o → ∀ index, Owns N keystore o index →
      ∃ o' index', Owns N keystore o' index' ∧ index ≤ index' ∧
        ∃ b ∈ σ.node.activeChain, o' ∈ b.allOutputs ∧ Stays σ.node horizon b o'

end Service

/-! ## The active chain

A block puts itself on top of the active chain and changes nothing below it. A pass of pruning keeps the
chain and takes outputs out of its blocks, from the body and from the registrations. -/

section Chain

open ChainState

variable {H : BlockHeader P → Prop} {s : ChainState P} {b : Block P} {order : List Bytes32}
  {horizon : UInt64}

/-- A block that extends the chain comes on top of it. -/
theorem activeChain_applyBlock (hH : DistinctHeaders H) (h : Rooted H s) (hb : H b.header)
    {δ : AppliedDelta P} (hlinear : (s.applyBlock b).2 = .linear δ) :
    Rooted H (s.applyBlock b).1 ∧ (s.applyBlock b).1.activeChain = b :: s.activeChain := by
  obtain ⟨chain, hrests⟩ := h
  have houtcome := outcome_applyBlock s b
  -- of the four outcomes only the linear one is left
  generalize s.applyBlock b = r at houtcome hlinear ⊢
  cases houtcome with
  | invalid _ => cases hlinear
  | refused _ => cases hlinear
  | reorg _ _ _ _ _ => cases hlinear
  | linear _ happly =>
      obtain ⟨c, hcheck, hcommit⟩ := applyLinearBlock_eq_some_iff.mp happly
      obtain rfl := congrArg Prod.fst hcommit
      have hacc : Accepted (s.storeBlock b) b c := accepted_of_checkBlock hcheck
      have hpush := Rests.push (s := s.storeBlock b) hH hrests hb hacc
      have hstore : ((s.storeBlock b).commitBlock b c).1.blocks = s.blocks.insert b.hash b := by
        show (s.blocks.insert b.hash b).insert b.hash b = _
        rw [Finmap.insert_insert]
      have hrests' : Rests H ((s.storeBlock b).commitBlock b c).1.blocks b.hash b.height (b :: chain) := by
        rw [hstore]
        exact hpush
      exact ⟨⟨_, hrests'⟩, by rw [hrests.activeChain_eq hH]; exact hrests'.activeChain_eq hH⟩

/-- Pruning takes the listed outputs out of the body and the registrations, not out of the mints. -/
theorem allOutputs_prune (b : Block P) (outs ins : List (Commitment P)) :
    (b.prune outs ins).allOutputs =
      (b.body.outputs ++ b.nameOps.flatMap fun op => op.feePayment.outputs).filter
        (fun o => o.commitment ∉ outs) ++ b.mintOps.flatMap fun op => op.feePayment.outputs := by
  simp only [Block.allOutputs, Block.prune, Transaction.prune, List.filter_append, List.flatMap_map,
    List.filter_flatMap]

theorem mem_allOutputs_of_prune {outs ins : List (Commitment P)} {o : Output P}
    (h : o ∈ (b.prune outs ins).allOutputs) : o ∈ b.allOutputs := by
  rw [allOutputs_prune] at h
  rcases List.mem_append.mp h with h | h
  · exact List.mem_append_left _ (List.mem_of_mem_filter h)
  · exact List.mem_append_right _ h

theorem mem_allOutputs_prune {outs : List (Commitment P)} (ins : List (Commitment P)) {o : Output P}
    (h : o ∈ b.allOutputs) (hkept : o.commitment ∉ outs) : o ∈ (b.prune outs ins).allOutputs := by
  rw [allOutputs_prune]
  rcases List.mem_append.mp h with h | h
  · exact List.mem_append_left _ (List.mem_filter.mpr ⟨h, decide_eq_true hkept⟩)
  · exact List.mem_append_right _ h

/-- What is taken out of a block is old, and spent deep below the tip. -/
theorem notMem_prunedOutputs {c : Commitment P} (hb : s.blocks.lookup b.hash = some b)
    (h : c ∈ s.utxos ∨ saturatingSub s.currentHeight horizon ≤ b.height ∨
      ∀ hash d, s.blocks.lookup hash = some d → c ∈ d.prunableSpent →
        s.currentHeight < d.height + horizon) :
    c ∉ s.prunedOutputs order horizon b.hash := by
  intro hpruned
  obtain ⟨spendHash, hpair⟩ := mem_prunedOutputs_iff.mp hpruned
  obtain ⟨-, b', hb', hlow, -, hspend⟩ := mem_prunePairs_iff.mp hpair
  cases hb.symm.trans hb'
  obtain ⟨hspent, spendHeight, hlookup, hdeep⟩ := deepSpend_eq_some_iff.mp hspend
  obtain ⟨-, d, hd, hmem, rfl⟩ := spentBy_of_lookup hlookup
  rcases h with hcoin | hrecent | hshallow
  · exact hspent hcoin
  · exact absurd hlow (UInt64.not_lt.mpr hrecent)
  · exact absurd hdeep (UInt64.not_le.mpr (hshallow _ d hd hmem))

theorem served_compact (hH : DistinctHeaders H) (h : Rooted H s) {o : Output P}
    (hb : b ∈ s.activeChain) (ho : o ∈ b.allOutputs) (hstays : Stays s horizon b o) :
    Served (s.compact order horizon).1 o := by
  have hstored : s.blocks.lookup b.hash = some b := by
    obtain ⟨chain, hrests⟩ := h
    rw [hrests.activeChain_eq hH] at hb
    exact hrests.linked.lookup_eq hrests.headed b hb
  have hkept : o ∈ (b.prune (s.prunedOutputs order horizon b.hash)
      (s.prunedInputs order horizon b.hash)).allOutputs := by
    rcases hstays with hmint | hleft
    · rw [allOutputs_prune]
      exact List.mem_append_right _ hmint
    · exact mem_allOutputs_prune _ ho (notMem_prunedOutputs hstored hleft)
  refine ⟨_, ?_, hkept⟩
  rw [(activeChain_compact hH h).2]
  exact List.mem_map.mpr ⟨b, hb, rfl⟩

theorem served_of_compact (hH : DistinctHeaders H) (h : Rooted H s) {o : Output P}
    (ho : Served (s.compact order horizon).1 o) : Served s o := by
  obtain ⟨b', hb', ho⟩ := ho
  rw [(activeChain_compact hH h).2] at hb'
  obtain ⟨b, hb, rfl⟩ := List.mem_map.mp hb'
  exact ⟨b, hb, mem_allOutputs_of_prune ho⟩

end Chain

/-! ## The run

The invariant compares two things that move apart: all that was mined, and what is still served. It survives
a step because whatever the step takes away is covered by an output that stays, with an index at least as
high. -/

namespace Mined

variable {m : Mined P} {o : Output P}

theorem allOutputs_eq (m : Mined P) :
    m.block.allOutputs = (aggregateAndCutThrough m.txs).outputs ++ m.minted ++
      m.block.payments.flatMap Transaction.outputs := by
  simp only [Block.allOutputs, Block.payments, m.outputs, List.flatMap_append, List.flatMap_map,
    List.append_assoc]

theorem mem_created_of_served (h : o ∈ m.block.allOutputs) : o ∈ m.created := by
  rw [allOutputs_eq] at h
  simp only [created, List.mem_append] at h ⊢
  rcases h with (h | h) | h
  · exact .inl (.inl ((CutThrough.cancelled m.txs).right.subset h))
  · exact .inl (.inr h)
  · exact .inr h

theorem served_of_unspent (h : o ∈ m.txs.flatMap Transaction.outputs)
    (hunspent : o.commitment ∉ m.txs.flatMap Transaction.spent) : o ∈ m.block.allOutputs := by
  rw [allOutputs_eq]
  exact List.mem_append_left _ (List.mem_append_left _ (CutThrough.mem_outputs_of_unspent m.txs h hunspent))

end Mined

namespace Service

open ChainState Checked

variable {H : BlockHeader P → Prop} {keystore : Keystore} {σ : Service P}

/-- Whatever index the wallet has used, it finds one at least as high; and all it finds was mined. -/
structure Covers (H : BlockHeader P → Prop) (N : NoteCrypto P) (keystore : Keystore) (σ : Service P) :
    Prop where
  rooted : Rooted H σ.node
  covered : ∀ index, Used N keystore σ.history index →
    ∃ o index', Served σ.node o ∧ Owns N keystore o index' ∧ index ≤ index'
  mined : ∀ o, Served σ.node o → ∃ m ∈ σ.history, o ∈ m.created

theorem Covers.start : Covers H N keystore (start : Service P) where
  rooted := ⟨[], Links.Keyed.empty, rfl, rfl⟩
  covered := by
    rintro index ⟨m, hm, -⟩
    cases hm
  mined := by
    rintro o ⟨b, hb, -⟩
    cases hb

/-- The step of a block: what is not spent in the block comes on top of what was served. -/
theorem Covers.block (hH : DistinctHeaders H) (h : Covers H N keystore σ) {m : Mined P}
    (hextends : σ.Extends H (.block m)) (hleaves : σ.Leaves N keystore (.block m)) :
    Covers H N keystore (σ.step (.block m)) := by
  obtain ⟨hheader, δ, hlinear⟩ := hextends
  obtain ⟨hrooted, hchain⟩ := activeChain_applyBlock hH h.rooted hheader hlinear
  have hnew : ∀ o ∈ m.block.allOutputs, Served (σ.step (.block m)).node o := by
    intro o ho
    refine ⟨m.block, ?_, ho⟩
    show m.block ∈ (σ.node.applyBlock m.block).1.activeChain
    rw [hchain]
    exact List.mem_cons_self
  have hold : ∀ o, Served σ.node o → Served (σ.step (.block m)).node o := by
    rintro o ⟨b, hb, ho⟩
    refine ⟨b, ?_, ho⟩
    show b ∈ (σ.node.applyBlock m.block).1.activeChain
    rw [hchain]
    exact List.mem_cons_of_mem _ hb
  refine ⟨hrooted, ?_, ?_⟩
  · rintro index ⟨m', hm', o, ho, howns⟩
    rcases List.mem_cons.mp hm' with rfl | hm'
    · rcases List.mem_append.mp ho with ho | ho
      · rcases List.mem_append.mp ho with ho | ho
        · obtain ⟨o', index', howns', hle, hleft⟩ := hleaves o ho index howns
          rcases hleft with ⟨ho', hunspent⟩ | ho' | hserved
          · exact ⟨o', index', hnew o' (Mined.served_of_unspent ho' hunspent), howns', hle⟩
          · refine ⟨o', index', hnew o' ?_, howns', hle⟩
            rw [Mined.allOutputs_eq, List.append_assoc]
            exact List.mem_append_right _ ho'
          · exact ⟨o', index', hold o' hserved, howns', hle⟩
        · refine ⟨o, index, hnew o ?_, howns, UInt32.le_refl _⟩
          rw [Mined.allOutputs_eq]
          exact List.mem_append_left _ (List.mem_append_right _ ho)
      · refine ⟨o, index, hnew o ?_, howns, UInt32.le_refl _⟩
        rw [Mined.allOutputs_eq]
        exact List.mem_append_right _ ho
    · obtain ⟨o', index', hserved, howns', hle⟩ := h.covered index ⟨m', hm', o, ho, howns⟩
      exact ⟨o', index', hold o' hserved, howns', hle⟩
  · rintro o ⟨b, hb, ho⟩
    have hb : b ∈ (σ.node.applyBlock m.block).1.activeChain := hb
    rw [hchain] at hb
    rcases List.mem_cons.mp hb with rfl | hb
    · exact ⟨m, List.mem_cons_self, Mined.mem_created_of_served ho⟩
    · obtain ⟨m', hm', hcreated⟩ := h.mined o ⟨b, hb, ho⟩
      exact ⟨m', List.mem_cons_of_mem _ hm', hcreated⟩

/-- The step of a pass of `compact`. -/
theorem Covers.compact (hH : DistinctHeaders H) (h : Covers H N keystore σ) {order : List Bytes32}
    {horizon : UInt64} (hleaves : σ.Leaves N keystore (.compact order horizon)) :
    Covers H N keystore (σ.step (.compact order horizon)) where
  rooted := (activeChain_compact hH h.rooted).1
  covered := by
    intro index hused
    obtain ⟨o, index', hserved, howns, hle⟩ := h.covered index hused
    obtain ⟨o', index'', howns', hle', b, hb, ho', hstays⟩ := hleaves o hserved index' howns
    exact ⟨o', index'', served_compact hH h.rooted hb ho' hstays, howns', UInt32.le_trans hle hle'⟩
  mined := by
    intro o ho
    exact h.mined o (served_of_compact hH h.rooted ho)

/-- The whole run. -/
theorem covers_run (hH : DistinctHeaders H) {ops : List (ServiceOp P)}
    (h : Guarded step (fun σ op => σ.Extends H op ∧ σ.Leaves N keystore op) start ops) :
    Covers H N keystore (run ops) := by
  refine h.invariant (I := Covers H N keystore) ?_ Covers.start
  rintro σ op hcovers ⟨hextends, hleaves⟩
  cases op with
  | block m => exact hcovers.block hH hextends hleaves
  | compact order horizon => exact hcovers.compact hH hleaves

end Service

/-! ## The restore

Every output that is served and the wallet's is found by the scan, since its note is not empty. The restore
then puts the next index past it, and so past everything the invariant covers. -/

section Fresh

open ChainState Checked

variable {H : BlockHeader P → Prop} {keystore : Keystore}

/-- A note that was sealed is not empty. -/
theorem Owns.note_ne_nil {o : Output P} {index : UInt32} (h : Owns N keystore o index) : o.note ≠ [] := by
  obtain ⟨value, ⟨nonce, hsealed⟩, -⟩ := h
  have hnote : o.note = sealNote N.toWalletCrypto (keystore.noteKey N.toWalletCrypto) nonce index value := by
    have hdecode := (hexDecode_hexEncode o.note).symm.trans hsealed
    exact Option.some.inj (Except.ok.inj hdecode)
  intro hnil
  have hlength := congrArg List.length (hnote.symm.trans hnil)
  rw [sealNote, List.length_append, nonce.toList_length] at hlength
  simp at hlength

theorem mem_scan_of_served (hH : DistinctHeaders H) {s : ChainState P} (h : Rooted H s) {o : Output P}
    {index : UInt32} (hserved : Served s o) (howns : Owns N keystore o index) :
    o.scanEntry ∈ handleScanOutputs s := by
  obtain ⟨chain, hrests⟩ := h
  obtain ⟨b, hb, ho⟩ := hserved
  rw [hrests.activeChain_eq hH] at hb
  rw [handleScanOutputs_eq hH hrests]
  refine List.mem_map.mpr ⟨o, List.mem_filter.mpr ⟨List.mem_flatMap.mpr ⟨b, hb, ho⟩, ?_⟩, rfl⟩
  simpa using howns.note_ne_nil

theorem served_of_mem_scan (hH : DistinctHeaders H) {s : ChainState P} (h : Rooted H s) {entry : ScanEntry}
    (hentry : entry ∈ handleScanOutputs s) : ∃ o, Served s o ∧ o.scanEntry = entry := by
  obtain ⟨chain, hrests⟩ := h
  rw [handleScanOutputs_eq hH hrests] at hentry
  obtain ⟨o, ho, rfl⟩ := List.mem_map.mp hentry
  obtain ⟨b, hb, ho⟩ := List.mem_flatMap.mp (List.mem_of_mem_filter ho)
  exact ⟨o, ⟨b, by rw [hrests.activeChain_eq hH]; exact hb, ho⟩, rfl⟩

/-- **No index is used again.** Take any run of a node that gets the blocks of one chain, with any passes
of `compact` in between, whose steps all leave an output of the wallet as high as those they take away. A
wallet restored from what the node serves then allocates an index that none of the mined transactions
has. -/
theorem restore_allocates_new (hH : DistinctHeaders H) {ops : List (ServiceOp P)}
    (hrun : Guarded Service.step (fun σ op => σ.Extends H op ∧ σ.Leaves N keystore op) Service.start ops)
    (hlast : ∀ index, Used N keystore (Service.run ops).history index → index.toNat < 2 ^ 32 - 1)
    (utxoSet : List String) :
    ∃ result keystore',
      recoverFromChain N keystore utxoSet (handleScanOutputs (Service.run ops).node) =
        .ok (result, keystore') ∧
      ∀ index, Used N keystore (Service.run ops).history index → keystore'.allocateIndex.1 ≠ index := by
  have hcovers := Service.covers_run hH hrun
  generalize Service.run ops = σ at hcovers hlast ⊢
  have hdecodes : ∀ entry ∈ handleScanOutputs σ.node, entry.Decodes := by
    intro entry hentry
    obtain ⟨o, -, rfl⟩ := served_of_mem_scan hH hcovers.rooted hentry
    exact ⟨_, hexDecode_hexEncode o.note⟩
  have hindices : ∀ entry ∈ handleScanOutputs σ.node, ∀ index value,
      ownedEntry N keystore entry = some (index, value) → index.toNat < 2 ^ 32 - 1 := by
    intro entry hentry index value howned
    obtain ⟨o, hserved, rfl⟩ := served_of_mem_scan hH hcovers.rooted hentry
    obtain ⟨m, hm, ho⟩ := hcovers.mined o hserved
    exact hlast index ⟨m, hm, o, ho, value, ScanEntry.owned_eq_some_iff.mp howned⟩
  have htally : Tally N keystore utxoSet (handleScanOutputs σ.node) _ := tally_recoverNext _
  refine ⟨_, _, recoverFromChain_ok_iff.mpr ⟨hdecodes, _, rfl, rfl, rfl⟩, ?_⟩
  rintro index hused rfl
  obtain ⟨o, index', hserved, howns, hle⟩ := hcovers.covered _ hused
  have hscanned := mem_scan_of_served hH hcovers.rooted hserved howns
  obtain ⟨value, hholds⟩ := howns
  have hlt := lt_nextIndex htally hindices hscanned (ScanEntry.owned_eq_some_iff.mpr hholds)
  exact absurd hle (UInt32.not_le.mpr hlt)

end Fresh

namespace Devnet

open ChainState Checked

/-- A payment of one output in full, at a fee of five. -/
def payOn (value : UInt64) (r : BitVec 256) (o : Output crypto) (r' : BitVec 256) : Transaction crypto :=
  ⟨[⟨Commitment.new (P := crypto) value r⟩], [o], [kernel (r - r') 5]⟩

/-- The genesis coin goes to index 0 of the wallet, -/
def funding : Transaction crypto :=
  payOn (genesisTotalMinted - 1_000_000) 7 (ownOutput 1 0 (genesisTotalMinted - 1_000_005))
    ((seedOnly 1).deriveBlinding noteCrypto.toWalletCrypto 0)

/-- and from there to somebody else. -/
def spending : Transaction crypto :=
  payOn (genesisTotalMinted - 1_000_005) ((seedOnly 1).deriveBlinding noteCrypto.toWalletCrypto 0)
    (output (genesisTotalMinted - 1_000_010) 12) 12

def genesisMined : Mined crypto := ⟨[], genesis.body.outputs, genesis, rfl⟩

/-- The block that the proposer makes of these transactions. -/
def minedFrom (txs : List (Transaction crypto)) : Mined crypto :=
  Mined.ofRound env (linear [genesis]) { Mempool.new with pendingTxs := txs }
    ⟨genesisDefault crypto, 1_000_000, Signature.zero⟩

/-- A node that gets the genesis block and this one. -/
def serving (txs : List (Transaction crypto)) : List (ServiceOp crypto) :=
  [.block genesisMined, .block (minedFrom txs)]

/-- The headers on the chain. -/
def OnChain (txs : List (Transaction crypto)) (h : BlockHeader crypto) : Prop :=
  h ∈ [genesis, (minedFrom txs).block].map Block.header

theorem mem_txs_minedFrom {txs : List (Transaction crypto)} (hlength : txs.length ≤ maxTxsPerBlock)
    {tx : Transaction crypto} : tx ∈ (minedFrom txs).txs ↔ tx ∈ txs := by
  have hperm := Queue.byFee_perm txFee txs
  have hall : (minedFrom txs).txs = Queue.byFee txFee txs :=
    List.take_of_length_le (hperm.length_eq.trans_le hlength)
  rw [hall]
  exact hperm.mem_iff

/-- The wallet has used index 0. -/
theorem used_funding {txs : List (Transaction crypto)} (hlength : txs.length ≤ maxTxsPerBlock)
    (hfunding : funding ∈ txs) :
    Used noteCrypto (seedOnly 1) (Service.run (serving txs)).history 0 := by
  have hmined : funding ∈ (minedFrom txs).txs := (mem_txs_minedFrom hlength).mpr hfunding
  refine ⟨minedFrom txs, List.mem_cons_self, ownOutput 1 0 (genesisTotalMinted - 1_000_005), ?_, _,
    holds_makeOutput (N := noteCrypto) _ _ ((seedOnly 1).deriveBlinding noteCrypto.toWalletCrypto) 0 _⟩
  apply List.mem_append_left
  apply List.mem_append_left
  exact List.mem_flatMap.mpr ⟨funding, hmined, List.mem_singleton.mpr rfl⟩

/-- The first transaction alone, and a pass with the default horizon. -/
def servingFunds : List (ServiceOp crypto) :=
  serving [funding] ++ [.compact [genesis.hash, (minedFrom [funding]).block.hash] cutThroughHorizon]

-- evaluated once: the blocks extend the chain, and what is served of it
theorem serving_run :
    (∀ txs ∈ [[funding, spending], [funding]],
      (zeroHash :: [genesis, (minedFrom txs).block].map Block.hash).Nodup ∧
      (Service.start.node.applyBlock genesisMined.block).2.isLinear = true ∧
      ((Service.start.step (.block genesisMined)).node.applyBlock (minedFrom txs).block).2.isLinear = true) ∧
    handleScanOutputs (Service.run (serving [funding, spending])).node = [] ∧
    (∀ o ∈ (minedFrom [funding]).txs.flatMap Transaction.outputs,
      o.commitment ∉ (minedFrom [funding]).txs.flatMap Transaction.spent) ∧
    saturatingSub (Service.run (serving [funding])).node.currentHeight cutThroughHorizon = 0 ∧
    ∀ m ∈ (Service.run servingFunds).history, ∀ o ∈ m.created, indexFits 1 o.scanEntry = true := by
  decide +kernel

theorem serving_extends {txs : List (Transaction crypto)} (h : txs ∈ [[funding, spending], [funding]]) :
    DistinctHeaders (OnChain txs) ∧ Service.start.Extends (OnChain txs) (.block genesisMined) ∧
      (Service.start.step (.block genesisMined)).Extends (OnChain txs) (.block (minedFrom txs)) := by
  obtain ⟨hnodup, hgenesis, hblock⟩ := serving_run.1 txs h
  refine ⟨distinctHeaders_of_nodup hnodup, ⟨?_, ApplyResult.exists_linear hgenesis⟩, ?_,
    ApplyResult.exists_linear hblock⟩
  · exact List.mem_map.mpr ⟨genesis, List.mem_cons_self, rfl⟩
  · exact List.mem_map.mpr ⟨(minedFrom txs).block, List.mem_cons_of_mem _ List.mem_cons_self, rfl⟩

/-- Both transactions are in one block, and the output of the wallet is cut through: its index is given out
again. -/
theorem cutThrough_allocates_used :
    DistinctHeaders (OnChain [funding, spending]) ∧
    Guarded Service.step (fun σ op => σ.Extends (OnChain [funding, spending]) op) Service.start
      (serving [funding, spending]) ∧
    ∃ result keystore', recoverFromChain (P := crypto) noteCrypto (seedOnly 1) []
        (handleScanOutputs (Service.run (serving [funding, spending])).node) = .ok (result, keystore') ∧
      Used noteCrypto (seedOnly 1) (Service.run (serving [funding, spending])).history
        keystore'.allocateIndex.1 := by
  obtain ⟨-, hscan, -⟩ := serving_run
  obtain ⟨hdistinct, hgenesis, hblock⟩ := serving_extends (List.mem_cons_self (l := [[funding]]))
  refine ⟨hdistinct, ⟨hgenesis, hblock, trivial⟩, ?_⟩
  rw [hscan]
  exact ⟨_, _, rfl, used_funding (by decide) List.mem_cons_self⟩

/-- The output of the first transaction alone is still served. -/
theorem servingFunds_allocates_new :
    ∃ result keystore', recoverFromChain (P := crypto) noteCrypto (seedOnly 1) []
        (handleScanOutputs (Service.run servingFunds).node) = .ok (result, keystore') ∧
      Used noteCrypto (seedOnly 1) (Service.run servingFunds).history 0 ∧
      keystore'.allocateIndex.1 ≠ 0 := by
  obtain ⟨-, -, hunspent, hrecent, hfits⟩ := serving_run
  obtain ⟨hdistinct, hgenesis, hblock⟩ := serving_extends
    (List.mem_cons_of_mem [funding, spending] (List.mem_singleton.mpr rfl))
  have hused : Used noteCrypto (seedOnly 1) (Service.run (serving [funding])).history 0 :=
    used_funding (by decide) List.mem_cons_self
  have hguarded : Guarded Service.step (fun σ op => σ.Extends (OnChain [funding]) op ∧
      σ.Leaves noteCrypto (seedOnly 1) op) Service.start servingFunds := by
    refine ⟨⟨hgenesis, ?_⟩, ⟨hblock, ?_⟩, ⟨trivial, ?_⟩, trivial⟩
    · intro o ho
      cases ho
    · intro o ho index howns
      exact ⟨o, index, howns, UInt32.le_refl _, .inl ⟨ho, hunspent o ho⟩⟩
    · rintro o ⟨b, hb, ho⟩ index howns
      refine ⟨o, index, howns, UInt32.le_refl _, b, hb, ho, .inr (.inr (.inl ?_))⟩
      have hzero : saturatingSub (Service.run (serving [funding])).node.currentHeight cutThroughHorizon ≤
          b.height := by
        rw [hrecent]
        exact UInt64.zero_le
      exact hzero
  have hlast : ∀ index, Used noteCrypto (seedOnly 1) (Service.run servingFunds).history index →
      index.toNat < 2 ^ 32 - 1 := by
    rintro index ⟨m, hm, o, ho, value, hholds⟩
    exact lt_of_indexFits (hfits m hm o ho) hholds
  obtain ⟨result, keystore', hrun, hnew⟩ := restore_allocates_new hdistinct hguarded hlast []
  exact ⟨result, keystore', hrun, hused, hnew 0 hused⟩

end Devnet

end Haze
