import Hcashd.Blockchain.StakeVersionLaw
import Hcashd.Indexers.TxIndex

/-!
# The transaction index along the main chain

The index is called for every block that is connected to the main chain or disconnected from it.
What it should then know are the transactions that the chain has applied to the utxo set: the stake
transactions of its blocks, and the regular transactions of each block whose child applies them. The
chain applies the regular transactions of a micro block whatever its child votes, and the index asks
for the vote only; where the two agree, the index holds one entry for each applied transaction
(`Indexed`), at the place of that transaction in its block, and a restart finds the number of the
last block again. The genesis block is never indexed.
-/

namespace Hcashd.Indexers

open Lib Blockchain

open List hiding removeAll

/-- A call of the chain: a block is connected, or the last one is disconnected. -/
inductive ChainStep
  | connect (block : MsgBlock)
  | disconnect

/-- The connected blocks, newest first, after a call. -/
def followChain (blocks : List MsgBlock) : ChainStep → List MsgBlock
  | .connect block => block :: blocks
  | .disconnect => blocks.tail

variable (env : Env) (genesis : MsgBlock)

/-- The block under the next one. -/
def tipOf (blocks : List MsgBlock) : MsgBlock := blocks.headD genesis

/-- The index serves a call. -/
def TxIndex.serve (idx : TxIndex) (blocks : List MsgBlock) : ChainStep → Except Err TxIndex
  | .connect block => idx.connectBlock env block (tipOf genesis blocks)
  | .disconnect => match blocks with
    | [] => .ok idx
    | block :: below => idx.disconnectBlock env block (tipOf genesis below)

/-- The index and the connected blocks after some calls. -/
def runIndex (s : TxIndex × List MsgBlock) (steps : List ChainStep) :
    Except Err (TxIndex × List MsgBlock) :=
  steps.foldlM (fun s step => do
    pure (← s.1.serve env genesis s.2 step, followChain s.2 step)) s

/-! ## What the chain applies, and what the index holds -/

/-- The transactions that the chain applies with a block, each with the block that holds it. -/
def appliedBy (block parent : MsgBlock) : List (MsgBlock × MsgTx) :=
  (if regularTxTreeValid env block parent then parent.transactions.map (parent, ·) else []) ++
    block.sTransactions.map (block, ·)

/-- The transactions that the chain has applied. -/
def applied : List MsgBlock → List (MsgBlock × MsgTx)
  | [] => []
  | block :: below => appliedBy env block (tipOf genesis below) ++ applied below

/-- The places of the transactions of a block. -/
def locsOf (block : MsgBlock) : List TxLoc × List TxLoc :=
  (deserializeTxLoc block.serialize).getD ([], [])

/-- The entries of some transactions of a block. -/
def entriesOf (txns : List MsgTx) (txLocs : List TxLoc) (blockID : ℕ) :
    List (Hash × TxIndexEntry) :=
  (txns.zip txLocs).map fun p => (env.txHash p.1, putTxIndexEntry blockID p.2)

/-- The entries of the regular transactions that a block takes up, given the blocks below it. -/
def parentEntries (block : MsgBlock) : List MsgBlock → List (Hash × TxIndexEntry)
  | [] => []
  | parent :: below =>
    if approvesParent block
      then entriesOf env parent.transactions (locsOf parent).1 (below.length + 1)
    else []

/-- The entries that come with a block. -/
def newEntries (block : MsgBlock) (below : List MsgBlock) : List (Hash × TxIndexEntry) :=
  parentEntries env block below ++
    entriesOf env block.sTransactions (locsOf block).2 (below.length + 1)

/-- The entries for a chain. -/
def entries : List MsgBlock → List (Hash × TxIndexEntry)
  | [] => []
  | block :: below => newEntries env block below ++ entries below

/-- The connected blocks with their numbers, which count them in the order of their connection. -/
def numbered (blocks : List MsgBlock) : List (MsgBlock × ℕ) := blocks.reverse.zipIdx 1

/-! ## Chains that the index can follow -/

/-- A block comes next on the main chain, is written as it is read, and applies no transaction that
has been applied before, whatever it votes. -/
@[mk_iff] structure NextBlock (blocks : List MsgBlock) (block : MsgBlock) : Prop where
  prevBlock : block.header.prevBlock = env.blockHash (tipOf genesis blocks).header
  height : block.header.height = blocks.length + 1
  fresh : env.blockHash block.header ∉ blocks.map fun b => env.blockHash b.header
  fits : block.Fits
  size : block.serialize.length < 2^32
  number : 2 * (blocks.length + 1) + increment < 2^32
  once : ((applied env genesis (block :: blocks)).map fun p => env.txHash p.2).Nodup

/-- A next block meets the condition that the code does not see to: on a micro block it approves
it. -/
@[mk_iff] structure Extends (blocks : List MsgBlock) (block : MsgBlock) : Prop extends
    NextBlock env genesis blocks block where
  approves : approvesParent block = true ∨ isKeyBlock env (tipOf genesis blocks).header = true

instance (blocks : List MsgBlock) (block : MsgBlock) :
    Decidable (NextBlock env genesis blocks block) :=
  decidable_of_iff' _ (nextBlock_iff env genesis blocks block)

instance (blocks : List MsgBlock) (block : MsgBlock) :
    Decidable (Extends env genesis blocks block) :=
  decidable_of_iff' _ (extends_iff env genesis blocks block)

/-- Every block of a chain came next when it was connected. -/
def Chained : List MsgBlock → Prop
  | [] => True
  | block :: below => Extends env genesis below block ∧ Chained below

/-- Every call connects a block that comes next, or finds a block to disconnect. -/
def AllFollow : List MsgBlock → List ChainStep → Prop
  | _, [] => True
  | blocks, .connect block :: steps =>
    Extends env genesis blocks block ∧ AllFollow (block :: blocks) steps
  | blocks, .disconnect :: steps => blocks ≠ [] ∧ AllFollow blocks.tail steps

instance : ∀ blocks steps, Decidable (AllFollow env genesis blocks steps)
  | _, [] => inferInstanceAs (Decidable True)
  | blocks, .connect block :: steps =>
    letI := instDecidableAllFollow (block :: blocks) steps
    inferInstanceAs (Decidable (_ ∧ _))
  | blocks, .disconnect :: steps =>
    letI := instDecidableAllFollow blocks.tail steps
    inferInstanceAs (Decidable (_ ∧ _))

/-- Every block of a chain came next when it was connected, whatever it votes. -/
def Linked : List MsgBlock → Prop
  | [] => True
  | block :: below => NextBlock env genesis below block ∧ Linked below

/-! ## The entries of a block -/

section

variable {env genesis} {block parent : MsgBlock} {below blocks : List MsgBlock} {idx : TxIndex}
  {db : TxBuckets}

/-- A chain is linked. -/
theorem Chained.linked (h : Chained env genesis blocks) : Linked env genesis blocks := by
  induction blocks with
  | nil => exact trivial
  | cons block below ih => exact ⟨h.1.toNextBlock, ih h.2⟩

/-- The places `locs` are those of the transactions `txns` in a block. -/
structure Places (block : MsgBlock) (txns : List MsgTx) (locs : List TxLoc) : Prop where
  slice : (locs.map fun loc => bytesAt block.serialize loc.txStart loc.txLen) =
    txns.map MsgTx.serialize
  le : ∀ loc ∈ locs, loc.txStart + loc.txLen ≤ block.serialize.length
  fits : ∀ tx ∈ txns, tx.Fits

variable {txns : List MsgTx} {locs : List TxLoc} {hash : Hash} {entry : TxIndexEntry}

theorem Places.length (h : Places block txns locs) : locs.length = txns.length := by
  have hlength := congrArg List.length h.slice
  rwa [length_map, length_map] at hlength

/-- `TxLoc` finds the transactions where they are. -/
theorem locsOf_spec (env : Env) (h : block.Fits) : txLoc env block = .ok (locsOf block) ∧
    Places block block.transactions (locsOf block).1 ∧
    Places block block.sTransactions (locsOf block).2 := by
  obtain ⟨locs, sLocs, hlocs, hslice, hslice', hle, hle'⟩ := slice_of_deserializeTxLoc h
  have heq : locsOf block = (locs, sLocs) := by rw [locsOf, hlocs, Option.getD_some]
  have htxLoc : txLoc env block = .ok (locs, sLocs) := by
    unfold txLoc
    rw [env.txLoc_eq, hlocs]
  rw [heq]
  exact ⟨htxLoc, ⟨hslice, hle, h.transactions⟩, hslice', hle', h.sTransactions⟩

/-- The loop adds all entries. -/
theorem addEntries_eq (h : locs.length = txns.length) (id : ℕ) : addEntries env db txns locs id =
      .ok { db with
        txByHash := applyUpdates db.txByHash (putAll (entriesOf env txns locs id)) } := by
  rw [addEntries, rejectIf_bind (by omega), applyUpdates, putAll, entriesOf, map_map, foldl_map]
  rfl

theorem map_fst_entriesOf (h : locs.length = txns.length)
    (id : ℕ) : (entriesOf env txns locs id).map Prod.fst = txns.map env.txHash := by
  rw [entriesOf, map_map]
  calc (txns.zip locs).map (Prod.fst ∘ fun p => (env.txHash p.1, putTxIndexEntry id p.2))
      = ((txns.zip locs).map Prod.fst).map env.txHash := by rw [map_map]; rfl
    _ = txns.map env.txHash := by rw [map_fst_zip h.ge]

/-- The loop removes all entries. -/
theorem removeEntries_eq (db : TxBuckets) (hmem : ∀ tx ∈ txns, env.txHash tx ∈ db.txByHash)
    (hnd : (txns.map env.txHash).Nodup) :
    removeEntries env db txns = .ok { db with
      txByHash := applyUpdates db.txByHash (removeAll (txns.map env.txHash)) } := by
  induction txns generalizing db with
  | nil => rfl
  | cons tx txns ih =>
    obtain ⟨htx, hmem⟩ := forall_mem_cons.1 hmem
    obtain ⟨hnotin, hnd⟩ := nodup_cons.1 hnd
    have hrest : ∀ tx' ∈ txns, env.txHash tx' ∈ db.txByHash.erase (env.txHash tx) := by
      intro tx' htx'
      rw [Std.ExtTreeMap.mem_erase]
      refine ⟨fun heq => hnotin ?_, hmem tx' htx'⟩
      rw [Std.LawfulEqCmp.eq_of_compare heq]
      exact mem_map_of_mem htx'
    rw [removeEntries, foldlM_cons, dbRemoveTxIndexEntry, rejectIf_bind (not_not.2 htx)]
    exact ih { db with txByHash := db.txByHash.erase (env.txHash tx) } hrest hnd

/-! ## One call -/

/-- The index holds the entries of a chain, and the numbers of its blocks. -/
structure Indexed (env : Env) (blocks : List MsgBlock) (idx : TxIndex) : Prop where
  cur : idx.curBlockID = blocks.length
  byID : Holds idx.db.hashByID ((numbered blocks).map fun p => (p.2, env.blockHash p.1.header))
  byHash : Holds idx.db.idByHash ((numbered blocks).map fun p => (env.blockHash p.1.header, p.2))
  byTx : Holds idx.db.txByHash (entries env blocks)

/-- The numbers of the blocks. -/
theorem numbered_cons (block : MsgBlock) (below : List MsgBlock) :
    numbered (block :: below) = numbered below ++ [(block, below.length + 1)] := by
  rw [numbered, reverse_cons, zipIdx_append, length_reverse, Nat.add_comm]
  rfl

theorem NextBlock.indexesParent_iff (h : NextBlock env genesis below block) :
    indexesParent block = true ↔ approvesParent block = true ∧ below ≠ [] := by
  rw [indexesParent, Bool.and_eq_true, decide_eq_true_eq, h.height, ← length_pos_iff]
  exact and_congr_right fun _ => by omega

theorem Indexed.dbFetchBlockIDByHash_eq (h : Indexed env (parent :: below) idx) :
    dbFetchBlockIDByHash idx.db (env.blockHash parent.header) = .ok (below.length + 1) := by
  have hmem : (env.blockHash parent.header, below.length + 1) ∈
      (numbered (parent :: below)).map fun p => (env.blockHash p.1.header, p.2) := by
    rw [numbered_cons, map_append]
    exact mem_append_right _ mem_cons_self
  rw [dbFetchBlockIDByHash, (h.byHash _ _).2 hmem]

/-- What a block adds to the index. -/
theorem Indexed.dbAddTxIndexEntries_eq (h : Indexed env below idx)
    (hchain : Linked env genesis below) (hblock : NextBlock env genesis below block) :
    dbAddTxIndexEntries env idx.db block (tipOf genesis below) (below.length + 1) =
      .ok { idx.db with
        txByHash := applyUpdates idx.db.txByHash (putAll (newEntries env block below)) } := by
  have hloc := (locsOf_spec env hblock.fits).1
  have hlen := (locsOf_spec env hblock.fits).2.2.length
  unfold dbAddTxIndexEntries newEntries
  cases below with
  | nil =>
    have hfalse : ¬ indexesParent block = true := fun htrue =>
      (hblock.indexesParent_iff.1 htrue).2 rfl
    simp only [if_neg hfalse, pure_bind, hloc, ok_bind, addEntries_eq hlen, parentEntries,
      nil_append]
  | cons parent below =>
    have hploc := (locsOf_spec env hchain.1.fits).1
    have hplen := (locsOf_spec env hchain.1.fits).2.1.length
    cases happ : approvesParent block with
    | true =>
      have htrue : indexesParent block = true := hblock.indexesParent_iff.2 ⟨happ, cons_ne_nil _ _⟩
      simp only [if_pos htrue, tipOf, headD_cons, hploc, ok_bind, h.dbFetchBlockIDByHash_eq,
        addEntries_eq hplen, hloc, addEntries_eq hlen, parentEntries, if_pos happ]
      rw [putAll, putAll, putAll, map_append, applyUpdates, applyUpdates, applyUpdates,
        foldl_append]
    | false =>
      have hfalse : ¬ indexesParent block = true := fun htrue => by
        rw [(hblock.indexesParent_iff.1 htrue).1] at happ
        cases happ
      simp only [if_neg hfalse, pure_bind, hloc, ok_bind, addEntries_eq hlen, parentEntries, happ,
        Bool.false_eq_true, if_false, nil_append]

theorem regularTxTreeValid_of_approvesParent (h : approvesParent block = true) :
    regularTxTreeValid env block parent = true := Bool.or_eq_true_iff.2 (.inl h)

theorem map_fst_newEntries_sublist (hchain : Linked env genesis below) (hblock : block.Fits) :
    ((newEntries env block below).map Prod.fst).Sublist
      ((appliedBy env block (tipOf genesis below)).map fun p => env.txHash p.2) := by
  have hlen := (locsOf_spec env hblock).2.2.length
  rw [newEntries, appliedBy, map_append, map_append, map_fst_entriesOf hlen, map_map]
  refine Sublist.append ?_ (Sublist.refl _)
  cases below with
  | nil => exact nil_sublist _
  | cons parent below =>
    have hplen := (locsOf_spec env hchain.1.fits).2.1.length
    rw [parentEntries]
    cases happ : approvesParent block with
    | true =>
      rw [if_pos rfl, map_fst_entriesOf hplen,
        if_pos (regularTxTreeValid_of_approvesParent happ), map_map]
      exact Sublist.refl _
    | false => exact nil_sublist _

theorem map_fst_entries_sublist (hchain : Linked env genesis blocks) :
    ((entries env blocks).map Prod.fst).Sublist
      ((applied env genesis blocks).map fun p => env.txHash p.2) := by
  induction blocks with
  | nil => exact Sublist.refl _
  | cons block below ih =>
    rw [entries, applied, map_append, map_append]
    exact (map_fst_newEntries_sublist hchain.2 hchain.1.fits).append (ih hchain.2)

/-- No transaction has two entries. -/
theorem nodup_entries (hchain : Linked env genesis (block :: below)) :
    ((newEntries env block below ++ entries env below).map Prod.fst).Nodup :=
  (map_fst_entries_sublist hchain).nodup hchain.1.once

theorem nodup_hashes (hchain : Linked env genesis blocks) :
    (blocks.map fun b => env.blockHash b.header).Nodup := by
  induction blocks with
  | nil => exact nodup_nil
  | cons block below ih => exact nodup_cons.2 ⟨hchain.1.fresh, ih hchain.2⟩

/-- The entries of a chain's blocks are those of the blocks below and the one of the last block. -/
theorem perm_map_numbered {α β : Type} {f : MsgBlock × ℕ → α × β}
    (h : (((numbered (block :: below)).map f).map Prod.fst).Nodup) :
    (([f (block, below.length + 1)] ++ (numbered below).map f).map Prod.fst).Nodup ∧
      ([f (block, below.length + 1)] ++ (numbered below).map f).Perm
        ((numbered (block :: below)).map f) := by
  have hperm :
      ([f (block, below.length + 1)] ++ (numbered below).map f).Perm
        ((numbered (block :: below)).map f) := by
    rw [numbered_cons, map_append]
    exact perm_append_comm
  exact ⟨(hperm.map Prod.fst).nodup_iff.2 h, hperm⟩

theorem nodup_numbered (hnodup : (blocks.map fun b => env.blockHash b.header).Nodup) :
    (((numbered blocks).map fun p => (p.2, env.blockHash p.1.header)).map Prod.fst).Nodup ∧
      (((numbered blocks).map fun p => (env.blockHash p.1.header, p.2)).map Prod.fst).Nodup := by
  rw [map_map, map_map]
  constructor
  · have hnumbers : (numbered blocks).map Prod.snd = range' 1 blocks.length := by
      rw [numbered, zipIdx_map_snd, length_reverse]
    exact hnumbers ▸ nodup_range'
  · have hblocks : (numbered blocks).map Prod.fst = blocks.reverse := by
      rw [numbered, zipIdx_map_fst]
    have hreverse := nodup_reverse.2 hnodup
    rw [← map_reverse, ← hblocks, map_map] at hreverse
    exact hreverse

/-- Two buckets number the blocks of a chain, which have different hashes. -/
structure NumbersBlocks (env : Env) (blocks : List MsgBlock) (db : TxBuckets) : Prop where
  byID : Holds db.hashByID ((numbered blocks).map fun p => (p.2, env.blockHash p.1.header))
  byHash : Holds db.idByHash ((numbered blocks).map fun p => (env.blockHash p.1.header, p.2))
  nodup : (blocks.map fun b => env.blockHash b.header).Nodup

theorem NumbersBlocks.getElem?_idByHash (h : NumbersBlocks env (block :: below) db) :
    db.idByHash[env.blockHash block.header]? = some (below.length + 1) := by
  rw [h.byHash, numbered_cons, map_append]
  exact mem_append_right _ mem_cons_self

/-- The numbers have no gap. -/
theorem NumbersBlocks.numbersUpTo (h : NumbersBlocks env blocks db) :
    NumbersUpTo db blocks.length := by
  intro id
  rw [← Std.ExtTreeMap.mem_iff_isSome_getElem?, h.byID.mem_iff, map_map]
  change id ∈ (numbered blocks).map Prod.snd ↔ _
  rw [numbered, zipIdx_map_snd, mem_range'_1, length_reverse]
  omega

/-- The next block has the next number. -/
theorem NumbersBlocks.put (h : NumbersBlocks env below db)
    (hfresh : env.blockHash block.header ∉ below.map fun b => env.blockHash b.header) :
    NumbersBlocks env (block :: below)
    (dbPutBlockIDIndexEntry db (env.blockHash block.header) (below.length + 1)) := by
  have hnodup : ((block :: below).map fun b => env.blockHash b.header).Nodup :=
    nodup_cons.2 ⟨hfresh, h.nodup⟩
  refine ⟨?_, ?_, hnodup⟩
  · obtain ⟨hkeys, hperm⟩ := perm_map_numbered (nodup_numbered hnodup).1
    exact (h.byID.putAll hkeys).perm hperm
  · obtain ⟨hkeys, hperm⟩ := perm_map_numbered (nodup_numbered hnodup).2
    exact (h.byHash.putAll hkeys).perm hperm

/-- The last block gives its number back. -/
theorem NumbersBlocks.remove (h : NumbersBlocks env (block :: below) db) :
    NumbersBlocks env below (dbRemoveBlockIDIndexEntry db (env.blockHash block.header)) := by
  unfold dbRemoveBlockIDIndexEntry
  rw [h.getElem?_idByHash]
  refine ⟨?_, ?_, (nodup_cons.1 h.nodup).2⟩
  · obtain ⟨hkeys, hperm⟩ := perm_map_numbered (nodup_numbered h.nodup).1
    exact (h.byID.perm hperm.symm).removeAll hkeys
  · obtain ⟨hkeys, hperm⟩ := perm_map_numbered (nodup_numbered h.nodup).2
    exact (h.byHash.perm hperm.symm).removeAll hkeys

theorem Indexed.numbersBlocks (h : Indexed env blocks idx) (hchain : Linked env genesis blocks) :
    NumbersBlocks env blocks idx.db :=
  ⟨h.byID, h.byHash, nodup_hashes hchain⟩

/-- `ConnectBlock` keeps the index in step. -/
theorem Indexed.connectBlock (h : Indexed env below idx)
    (hchain : Linked env genesis (block :: below)) :
    ∃ idx', idx.connectBlock env block (tipOf genesis below) = .ok idx' ∧
    Indexed env (block :: below) idx' := by
  have hnumber := hchain.1.number
  have hid : u32 (idx.curBlockID + 1) = below.length + 1 := by
    rw [h.cur]
    exact u32_of_lt (by omega)
  unfold TxIndex.connectBlock
  simp only [hid, h.dbAddTxIndexEntries_eq hchain.2 hchain.1, ok_bind]
  have hnumbers := (h.numbersBlocks hchain.2).put hchain.1.fresh
  exact ⟨_, rfl, rfl, hnumbers.byID, hnumbers.byHash, h.byTx.putAll (nodup_entries hchain)⟩

theorem Indexed.dbRemoveTxIndexEntries_eq (h : Indexed env (block :: below) idx)
    (hchain : Linked env genesis (block :: below)) :
    dbRemoveTxIndexEntries env idx.db block (tipOf genesis below) = .ok { idx.db with
        txByHash := applyUpdates idx.db.txByHash
          (removeAll ((newEntries env block below).map Prod.fst)) } := by
  have hlen := (locsOf_spec env hchain.1.fits).2.2.length
  have hmem : ∀ hash ∈ (newEntries env block below).map Prod.fst, hash ∈ idx.db.txByHash := by
    intro hash hhash
    rw [h.byTx.mem_iff, entries, map_append]
    exact mem_append_left _ hhash
  have hnodup := nodup_entries hchain
  rw [map_append, nodup_append] at hnodup
  replace hnodup := hnodup.1
  unfold dbRemoveTxIndexEntries
  rw [newEntries, map_append, map_fst_entriesOf hlen] at hmem hnodup ⊢
  cases hparent : indexesParent block with
  | false =>
    have hnone : parentEntries env block below = [] := by
      cases below with
      | nil => rfl
      | cons parent below =>
        rw [parentEntries, if_neg]
        intro happ
        rw [hchain.1.indexesParent_iff.2 ⟨happ, cons_ne_nil _ _⟩] at hparent
        cases hparent
    rw [hnone] at hmem hnodup ⊢
    simp only [Bool.false_eq_true, if_false, pure_bind, map_nil, nil_append] at hmem hnodup ⊢
    exact removeEntries_eq _ (fun tx htx => hmem _ (mem_map_of_mem htx)) hnodup
  | true =>
    obtain ⟨happ, hne⟩ := hchain.1.indexesParent_iff.1 hparent
    obtain ⟨parent, rest, rfl⟩ := exists_cons_of_ne_nil hne
    have hplen := (locsOf_spec env hchain.2.1.fits).2.1.length
    rw [parentEntries, if_pos happ, map_fst_entriesOf hplen] at hmem hnodup ⊢
    obtain ⟨hndp, hnds, hdisjoint⟩ := nodup_append.1 hnodup
    rw [if_pos rfl, tipOf, headD_cons, removeEntries_eq _ (fun tx htx =>
      hmem _ (mem_append_left _ (mem_map_of_mem htx))) hndp]
    -- the stake transactions are still there when the others are gone
    have hleft : ∀ tx ∈ block.sTransactions, env.txHash tx ∈
        applyUpdates idx.db.txByHash (removeAll (parent.transactions.map env.txHash)) := by
      intro tx htx
      have hhash := mem_map_of_mem (f := env.txHash) htx
      rw [Std.ExtTreeMap.mem_iff_isSome_getElem?, getElem?_applyUpdates_of_not_mem,
        ← Std.ExtTreeMap.mem_iff_isSome_getElem?]
      · exact hmem _ (mem_append_right _ hhash)
      · intro hmem'
        simp only [removeAll, map_map, Function.comp_def] at hmem'
        exact hdisjoint _ hmem' _ hhash rfl
    rw [ok_bind]
    refine (removeEntries_eq { idx.db with
      txByHash := applyUpdates idx.db.txByHash (removeAll (parent.transactions.map env.txHash)) }
      hleft hnds).trans ?_
    rw [removeAll, removeAll, removeAll, map_append, applyUpdates, applyUpdates, applyUpdates,
      foldl_append]

/-- `DisconnectBlock` keeps the index in step. -/
theorem Indexed.disconnectBlock (h : Indexed env (block :: below) idx)
    (hchain : Linked env genesis (block :: below)) :
    ∃ idx', idx.disconnectBlock env block (tipOf genesis below) = .ok idx' ∧
    Indexed env below idx' := by
  have hnumber := hchain.1.number
  have hid := (h.numbersBlocks hchain).getElem?_idByHash
  have hnumbers := (h.numbersBlocks hchain).remove
  have hcur : u32Sub idx.curBlockID 1 = below.length := by
    rw [h.cur, length_cons, u32Sub]
    omega
  unfold TxIndex.disconnectBlock
  simp only [h.dbRemoveTxIndexEntries_eq hchain, ok_bind, dbRemoveBlockIDIndexEntry, hid, hcur]
  unfold dbRemoveBlockIDIndexEntry at hnumbers
  rw [hid] at hnumbers
  exact ⟨_, rfl, rfl, hnumbers.byID, hnumbers.byHash, h.byTx.removeAll (nodup_entries hchain)⟩

/-! ## What the entries say -/

theorem exists_of_mem_entriesOf {id : ℕ} (h : Places block txns locs)
    (hsize : block.serialize.length < 2^32)
    (hmem : (hash, entry) ∈ entriesOf env txns locs id) :
    ∃ tx ∈ txns, env.txHash tx = hash ∧ entry.blockID = id ∧
    entry.txStart + entry.txLen ≤ block.serialize.length ∧
      MsgTx.btcDecode (bytesAt block.serialize entry.txStart entry.txLen) =
        some ((.full, tx), []) := by
  obtain ⟨⟨tx, loc⟩, hzip, heq⟩ := mem_map.1 hmem
  obtain ⟨rfl, rfl⟩ := Prod.mk.inj heq
  obtain ⟨i, hi⟩ := mem_iff_getElem?.1 hzip
  obtain ⟨htx, hloc⟩ := getElem?_zip_eq_some.1 hi
  have hle := h.le loc (mem_of_getElem? hloc)
  have hslice := congrArg (·[i]?) h.slice
  simp only [getElem?_map, htx, hloc, Option.map_some, Option.some.injEq] at hslice
  have hmemtx := mem_of_getElem? htx
  have hstart : u32 loc.txStart = loc.txStart := u32_of_lt (by omega)
  have hlen : u32 loc.txLen = loc.txLen := u32_of_lt (by omega)
  refine ⟨tx, hmemtx, rfl, rfl, ?_, ?_⟩
  · simp only [putTxIndexEntry, hstart, hlen, hle]
  simp only [putTxIndexEntry, hstart, hlen, hslice]
  exact (reads_tx (h.fits tx hmemtx)).self

/-- An entry is of a transaction that took effect. -/
theorem exists_applied_of_mem_entries (hchain : Linked env genesis blocks)
    (hmem : (hash, entry) ∈ entries env blocks) :
    ∃ p ∈ applied env genesis blocks, env.txHash p.2 = hash ∧
    (p.1, entry.blockID) ∈ numbered blocks ∧
      entry.txStart + entry.txLen ≤ p.1.serialize.length ∧
      MsgTx.btcDecode (bytesAt p.1.serialize entry.txStart entry.txLen) =
        some ((.full, p.2), []) := by
  induction blocks with
  | nil => exact absurd hmem not_mem_nil
  | cons block below ih =>
    rw [entries, mem_append, newEntries, mem_append] at hmem
    rw [numbered_cons]
    rcases hmem with (hparent | hstake) | hbelow
    · -- a regular transaction of the parent, which has been approved
      cases below with
      | nil => exact absurd hparent not_mem_nil
      | cons parent rest =>
        rw [parentEntries] at hparent
        split_ifs at hparent with happ
        · obtain ⟨tx, htx, hhash, hid, hdecode⟩ := exists_of_mem_entriesOf
            (locsOf_spec env hchain.2.1.fits).2.1 hchain.2.1.size hparent
          refine ⟨(parent, tx), ?_, hhash, ?_, hdecode⟩
          · rw [applied, appliedBy, tipOf, headD_cons,
              if_pos (regularTxTreeValid_of_approvesParent happ)]
            exact mem_append_left _ (mem_append_left _ (mem_map_of_mem htx))
          · rw [numbered_cons, hid]
            exact mem_append_left _ (mem_append_right _ mem_cons_self)
        · exact absurd hparent not_mem_nil
    · obtain ⟨tx, htx, hhash, hid, hdecode⟩ := exists_of_mem_entriesOf
        (locsOf_spec env hchain.1.fits).2.2 hchain.1.size hstake
      refine ⟨(block, tx), ?_, hhash, ?_, hdecode⟩
      · rw [applied, appliedBy]
        exact mem_append_left _ (mem_append_right _ (mem_map_of_mem htx))
      · rw [hid]
        exact mem_append_right _ mem_cons_self
    · obtain ⟨p, hp, hhash, hnumber, hdecode⟩ := ih hchain.2 hbelow
      refine ⟨p, ?_, hhash, mem_append_left _ hnumber, hdecode⟩
      rw [applied]
      exact mem_append_right _ hp

/-- A transaction that took effect has an entry. -/
theorem mem_entries_of_mem_applied {p : MsgBlock × MsgTx} (hchain : Chained env genesis blocks)
    (hp : p ∈ applied env genesis blocks)
    (hne : ∀ tx ∈ genesis.transactions, env.txHash tx ≠ env.txHash p.2) :
    env.txHash p.2 ∈ (entries env blocks).map Prod.fst := by
  induction blocks with
  | nil => exact absurd hp not_mem_nil
  | cons block below ih =>
    rw [applied, mem_append, appliedBy, mem_append] at hp
    rw [entries, newEntries, map_append, map_append,
      map_fst_entriesOf (locsOf_spec env hchain.1.fits).2.2.length]
    rcases hp with (hparent | hstake) | hbelow
    · refine mem_append_left _ (mem_append_left _ ?_)
      split_ifs at hparent with hvalid
      · obtain ⟨tx, htx, rfl⟩ := mem_map.1 hparent
        cases below with
        | nil => exact absurd rfl (hne tx htx)
        | cons parent rest =>
          -- the tree is applied for the vote, since a key block under it leaves no other reason
          have happ : approvesParent block = true := by
            rcases hchain.1.approves with happ | hkey
            · exact happ
            · rw [regularTxTreeValid, hkey, Bool.not_true, Bool.or_false] at hvalid
              exact hvalid
          rw [parentEntries, if_pos happ,
            map_fst_entriesOf (locsOf_spec env hchain.2.1.fits).2.1.length]
          exact mem_map_of_mem htx
      · exact absurd hparent not_mem_nil
    · obtain ⟨tx, htx, rfl⟩ := mem_map.1 hstake
      exact mem_append_left _ (mem_append_right _ (mem_map_of_mem htx))
    · exact mem_append_right _ (ih hchain.2 hbelow)

/-! ## Every run -/

/-- The index agrees with the main chain: a region is returned for the transactions that have been
applied and no others, its bytes are those of the transaction, the numbers of the blocks count them
in the order of their connection, and a restart finds the last number. The transactions of the
genesis block are left out. -/
structure FollowsMainChain (env : Env) (genesis : MsgBlock) (blocks : List MsgBlock)
    (idx : TxIndex) :
    Prop where
  region_iff : ∀ hash, (∀ tx ∈ genesis.transactions, env.txHash tx ≠ hash) →
    ((∃ region, idx.txBlockRegion hash = .ok (some region)) ↔
      ∃ p ∈ applied env genesis blocks, env.txHash p.2 = hash)
  no_region : ∀ hash, (∃ region, idx.txBlockRegion hash = .ok (some region)) ∨
    idx.txBlockRegion hash = .ok none
  region : ∀ hash region, idx.txBlockRegion hash = .ok (some region) →
    ∃ p ∈ applied env genesis blocks, env.txHash p.2 = hash ∧ p.1 ∈ blocks ∧
    env.blockHash p.1.header = region.hash ∧
      MsgTx.btcDecode (bytesAt p.1.serialize region.offset region.len) = some ((.full, p.2), [])
  hashByID : ∀ (id : ℕ) (hash : Hash), idx.db.hashByID[id]? = some hash ↔
    ∃ block, (block, id) ∈ blocks.reverse.zipIdx 1 ∧ env.blockHash block.header = hash
  idByHash : ∀ (hash : Hash) (id : ℕ), idx.db.idByHash[hash]? = some id ↔
    ∃ block, (block, id) ∈ blocks.reverse.zipIdx 1 ∧ env.blockHash block.header = hash
  curBlockID : idx.curBlockID = blocks.length
  init : TxIndex.init idx.db = .ok idx

/-- The region of an entry holds the transaction. -/
theorem Indexed.txBlockRegion_of_mem (h : Indexed env blocks idx)
    (hchain : Linked env genesis blocks)
    (hmem : (hash, entry) ∈ entries env blocks) :
    ∃ p ∈ applied env genesis blocks, env.txHash p.2 = hash ∧ p.1 ∈ blocks ∧
    idx.txBlockRegion hash =
        .ok (some ⟨env.blockHash p.1.header, entry.txStart, entry.txLen⟩) ∧
      entry.txStart + entry.txLen ≤ p.1.serialize.length ∧
      MsgTx.btcDecode (bytesAt p.1.serialize entry.txStart entry.txLen) =
        some ((.full, p.2), []) := by
  obtain ⟨p, hp, hhash, hnumber, hdecode⟩ := exists_applied_of_mem_entries hchain hmem
  have hblock : p.1 ∈ blocks := by
    have hfst := mem_map_of_mem (f := Prod.fst) hnumber
    rw [numbered, zipIdx_map_fst] at hfst
    exact mem_reverse.1 hfst
  refine ⟨p, hp, hhash, hblock, ?_, hdecode⟩
  have hid : idx.db.hashByID[entry.blockID]? = some (env.blockHash p.1.header) :=
    (h.byID _ _).2 (mem_map.2 ⟨_, hnumber, rfl⟩)
  rw [TxIndex.txBlockRegion, dbFetchTxIndexEntry, (h.byTx hash entry).2 hmem]
  simp only [dbFetchBlockHashByID, hid, ok_bind]
  rfl

/-- Without an entry there is no region. -/
theorem Indexed.txBlockRegion_of_not_mem (h : Indexed env blocks idx)
    (hmem : hash ∉ (entries env blocks).map Prod.fst) : idx.txBlockRegion hash = .ok none := by
  have hnone : idx.db.txByHash[hash]? = none := by
    rw [← h.byTx.mem_iff, Std.ExtTreeMap.mem_iff_isSome_getElem?, Bool.not_eq_true,
      Option.isSome_eq_false_iff, Option.isNone_iff_eq_none] at hmem
    exact hmem
  rw [TxIndex.txBlockRegion, dbFetchTxIndexEntry, hnone]

/-- An index in step follows the main chain. -/
theorem Indexed.followsMainChain (h : Indexed env blocks idx)
    (hchain : Chained env genesis blocks) :
    FollowsMainChain env genesis blocks idx := by
  have hcases : ∀ hash, (∃ entry, (hash, entry) ∈ entries env blocks) ∨
      hash ∉ (entries env blocks).map Prod.fst := by
    intro hash
    by_cases hmem : hash ∈ (entries env blocks).map Prod.fst
    · obtain ⟨⟨hash', entry⟩, hentry, rfl⟩ := mem_map.1 hmem
      exact .inl ⟨entry, hentry⟩
    · exact .inr hmem
  have hregion : ∀ hash region, idx.txBlockRegion hash = .ok (some region) →
      ∃ p ∈ applied env genesis blocks, env.txHash p.2 = hash ∧ p.1 ∈ blocks ∧
      env.blockHash p.1.header = region.hash ∧
        MsgTx.btcDecode (bytesAt p.1.serialize region.offset region.len) =
          some ((.full, p.2), []) := by
    intro hash region hget
    rcases hcases hash with ⟨entry, hmem⟩ | hmem
    · obtain ⟨p, hp, hhash, hblock, hok, -, hdecode⟩ := h.txBlockRegion_of_mem hchain.linked hmem
      rw [hok] at hget
      cases hget
      exact ⟨p, hp, hhash, hblock, rfl, hdecode⟩
    · rw [h.txBlockRegion_of_not_mem hmem] at hget
      cases hget
  refine ⟨fun hash hne => ⟨?_, ?_⟩, fun hash => ?_, hregion, fun id hash => ?_, fun hash id =>
    ?_, h.cur, ?_⟩
  · rintro ⟨region, hget⟩
    obtain ⟨p, hp, hhash, -⟩ := hregion hash region hget
    exact ⟨p, hp, hhash⟩
  · rintro ⟨p, hp, rfl⟩
    rcases hcases (env.txHash p.2) with ⟨entry, hmem⟩ | hmem
    · obtain ⟨q, -, -, -, hok, -⟩ := h.txBlockRegion_of_mem hchain.linked hmem
      exact ⟨_, hok⟩
    · exact absurd (mem_entries_of_mem_applied hchain hp hne) hmem
  · rcases hcases hash with ⟨entry, hmem⟩ | hmem
    · obtain ⟨p, -, -, -, hok, -⟩ := h.txBlockRegion_of_mem hchain.linked hmem
      exact .inl ⟨_, hok⟩
    · exact .inr (h.txBlockRegion_of_not_mem hmem)
  · simp [h.byID id hash, numbered]
  · simp [h.byHash hash id, numbered]
  · have hnumbers := (h.numbersBlocks hchain.linked).numbersUpTo
    have hbound : 2 * blocks.length + increment < 2^32 := by
      cases blocks with
      | nil => decide
      | cons block below => exact hchain.1.number
    rw [init_eq hnumbers hbound, ← h.cur]

/-- Every run of blocks keeps the index in step. -/
theorem exists_runIndex (steps : List ChainStep) (h : Indexed env blocks idx)
    (hchain : Chained env genesis blocks) (hsteps : AllFollow env genesis blocks steps) :
    ∃ idx', runIndex env genesis (idx, blocks) steps = .ok (idx', steps.foldl followChain blocks) ∧
      Indexed env (steps.foldl followChain blocks) idx' ∧
      Chained env genesis (steps.foldl followChain blocks) := by
  induction steps generalizing blocks idx with
  | nil => exact ⟨idx, rfl, h, hchain⟩
  | cons step steps ih =>
    cases step with
    | connect block =>
      have hnext : Chained env genesis (block :: blocks) := ⟨hsteps.1, hchain⟩
      obtain ⟨idx', hok, h'⟩ := h.connectBlock hnext.linked
      obtain ⟨last, hrun, hlast⟩ := ih h' hnext hsteps.2
      refine ⟨last, ?_, hlast⟩
      rw [runIndex, foldlM_cons, TxIndex.serve, hok]
      exact hrun
    | disconnect =>
      obtain ⟨block, below, rfl⟩ := exists_cons_of_ne_nil hsteps.1
      obtain ⟨idx', hok, h'⟩ := h.disconnectBlock hchain.linked
      obtain ⟨last, hrun, hlast⟩ := ih h' hchain.2 hsteps.2
      refine ⟨last, ?_, hlast⟩
      rw [runIndex, foldlM_cons, TxIndex.serve, hok]
      exact hrun

theorem Indexed.new : Indexed env [] newTxIndex :=
  ⟨rfl, Holds.empty, Holds.empty, Holds.empty⟩

/-- In every run of calls each of which follows the chain, every call succeeds, and the index agrees
with the main chain. -/
theorem followsMainChain_of_allFollow (steps : List ChainStep)
    (h : AllFollow env genesis [] steps) :
    ∃ idx, runIndex env genesis (newTxIndex, []) steps = .ok (idx, steps.foldl followChain []) ∧
      FollowsMainChain env genesis (steps.foldl followChain []) idx := by
  obtain ⟨idx, hrun, hindexed, hchain⟩ := exists_runIndex steps Indexed.new trivial h
  exact ⟨idx, hrun, hindexed.followsMainChain hchain⟩

end

/-! ## A tree that is applied without a vote for it -/

open Voting

/-- A block with all the bytes of its header. -/
def fullHeader (block : MsgBlock) : MsgBlock :=
  { block with header := { block.header with extraData := replicate 32 0 } }

/-- A micro block after the third key block, with its vote on the block before it. -/
def microBlock (voteBits height nonce prev : ℕ) : MsgBlock :=
  blockOf versionEnv { sampleHeader height 3 nonce prev 3 with version := 3, voteBits := voteBits }
    [coinbaseTx nonce 0 [heightOut height, payTo 2 0]] []

/-- Three key blocks, the second of which has tickets, and two micro blocks with the same vote. -/
def microChain (voteBits : ℕ) : List MsgBlock :=
  ((versionBlocks 0).map Prod.snd).take 3 ++
    [microBlock voteBits 4 204 3, microBlock voteBits 5 205 204]

/-- The calls for these blocks, in the order of the chain. -/
def connectAll (blocks : List MsgBlock) : List ChainStep :=
  blocks.map fun block => .connect (fullHeader block)

/-- Two micro blocks that approve the block before them, one of which is disconnected again. -/
def microSteps : List ChainStep := connectAll (microChain 1) ++ [.disconnect]

/-- A run with a micro block. -/
theorem followsMainChain_of_allFollow_microSteps :
    AllFollow versionEnv versionEnv.params.genesisBlock [] microSteps ∧
    ∃ idx, runIndex versionEnv versionEnv.params.genesisBlock (newTxIndex, []) microSteps =
        .ok (idx, microSteps.foldl followChain []) ∧
      FollowsMainChain versionEnv versionEnv.params.genesisBlock
        (microSteps.foldl followChain []) idx := by
  have h : AllFollow versionEnv versionEnv.params.genesisBlock [] microSteps := by decide +kernel
  exact ⟨h, followsMainChain_of_allFollow _ h⟩

/-- Two micro blocks that disapprove the block before them are accepted. The regular transactions of
the first one, which are its coinbase, are applied with the second one, and have no region. Nor has
the coinbase of the genesis block, which is applied with the first block. -/
theorem exists_applied_without_region :
    ∃ st, processBlocks versionEnv (fun _ _ => True) (genesisState versionEnv)
      ((microChain 0).map fun block => (10, fullHeader block)) = .ok st ∧
    st.chain.map ChainBlock.block = ((microChain 0).map fullHeader).reverse ++
      [versionEnv.params.genesisBlock] ∧
    ∃ s, runIndex versionEnv versionEnv.params.genesisBlock (newTxIndex, [])
      (connectAll (microChain 0)) = .ok s ∧
      s.2 = ((microChain 0).map fullHeader).reverse ∧
      (∃ p ∈ applied versionEnv versionEnv.params.genesisBlock s.2,
        p.1 = fullHeader (microBlock 0 4 204 3) ∧ p.2 ∈ p.1.transactions ∧
        s.1.txBlockRegion (versionEnv.txHash p.2) = .ok none) ∧
      ∃ p ∈ applied versionEnv versionEnv.params.genesisBlock s.2,
        p.1 = versionEnv.params.genesisBlock ∧ s.1.txBlockRegion (versionEnv.txHash p.2) =
          .ok none := by
  decide +kernel

end Hcashd.Indexers
