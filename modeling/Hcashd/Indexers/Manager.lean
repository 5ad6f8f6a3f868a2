import Hcashd.Indexers.AddrIndexLaw

/-!
# The index manager

`blockchain/indexers/manager.go`: the chain calls the manager inside of the database transaction in
which it connects or disconnects a block, and the manager calls the enabled indexes one after the
other. Each index has a tip in the database, the last block it has been given, and is only given the
next one. What the indexes write is in the database transaction and is lost when that is rolled
back. What they keep in memory is not: the transaction index has then counted a block that is not
stored, and the index of existing addresses has forgotten those of the unconfirmed transactions,
which it had written with the block.
-/

namespace Hcashd.Indexers

open Lib Blockchain Std.ExtTreeMap Finset

/-- The optional indexes. -/
inductive Indexer
  | txIndex | addrIndex | existsAddrIndex
  deriving DecidableEq, Repr

/-- The settings of `server.go` for the indexes. -/
structure IndexConfig where
  txIndex : Bool
  addrIndex : Bool
  noExistsAddrIndex : Bool
  deriving DecidableEq, Repr

/-- The enabled indexes in the order in which they are called. The address index needs the
transaction index. -/
def IndexConfig.enabledIndexes (cfg : IndexConfig) : List Indexer :=
  (if cfg.txIndex || cfg.addrIndex then [.txIndex] else []) ++
    (if cfg.addrIndex then [.addrIndex] else []) ++
    if cfg.noExistsAddrIndex then [] else [.existsAddrIndex]

/-- What the indexes have in the database: their buckets, and the hash and the height of their
tips. -/
structure IndexDb where
  tx : TxBuckets
  addr : AddrBucket
  existsAddr : Finset AddrKey
  tips : Indexer → Option (Hash × ℕ)

/-- The indexes: `curBlockID` of the transaction index and `mpExistsAddr` of the index of existing
addresses are in memory. -/
structure Indexes where
  db : IndexDb
  curBlockID : ℕ
  mpExistsAddr : Finset AddrKey

/-- The transaction index. -/
def Indexes.txIndex (s : Indexes) : TxIndex := ⟨s.db.tx, s.curBlockID⟩

/-- The exists-address index among the indexes. -/
def Indexes.existsAddrIndex (s : Indexes) : ExistsAddrIndex := ⟨s.db.existsAddr, s.mpExistsAddr⟩

/-- `dbFetchIndexerTip`: the block up to which an index is. -/
def dbFetchIndexerTip (db : IndexDb) (indexer : Indexer) : Except Err (Hash × ℕ) :=
  match db.tips indexer with
  | none => .error .other
  | some tip => .ok tip

/-- `dbPutIndexerTip`: stores that block. -/
def dbPutIndexerTip (s : Indexes) (indexer : Indexer) (hash : Hash) (height : ℕ) : Indexes :=
  { s with db := { s.db with tips := Function.update s.db.tips indexer (some (hash, height)) } }

variable (env : Env) (addrs : Addresses) (genesis : MsgBlock)

/-- `ConnectBlock` of one index. -/
def Indexer.connectBlock (indexer : Indexer) (s : Indexes) (block parent : MsgBlock)
    (view : UtxoViewpoint) :
    Except Err Indexes :=
  match indexer with
  | .txIndex => do
    let idx ← s.txIndex.connectBlock env block parent
    pure { s with
      db := { s.db with tx := idx.db }
      curBlockID := idx.curBlockID }
  | .addrIndex => do
    let bucket ← AddrBucket.connectBlock env addrs s.db.addr s.db.tx block parent view
    pure { s with
      db := { s.db with addr := bucket } }
  | .existsAddrIndex =>
    let idx := s.existsAddrIndex.connectBlock env addrs block parent
    .ok { s with
      db := { s.db with existsAddr := idx.bucket }
      mpExistsAddr := idx.mpExistsAddr }

/-- `DisconnectBlock` of an index. That of existing addresses does nothing. -/
def Indexer.disconnectBlock (indexer : Indexer) (s : Indexes) (block parent : MsgBlock)
    (view : UtxoViewpoint) :
    Except Err Indexes :=
  match indexer with
  | .txIndex => do
    let idx ← s.txIndex.disconnectBlock env block parent
    pure { s with
      db := { s.db with tx := idx.db }
      curBlockID := idx.curBlockID }
  | .addrIndex => do
    let bucket ← AddrBucket.disconnectBlock env addrs s.db.addr block parent view
    pure { s with
      db := { s.db with addr := bucket } }
  | .existsAddrIndex => .ok s

/-- `dbIndexConnectBlock`: connects a block to one index and moves its tip. -/
def dbIndexConnectBlock (indexer : Indexer) (s : Indexes) (block parent : MsgBlock)
    (view : UtxoViewpoint) :
    Except Err Indexes := do
  let curTip ← dbFetchIndexerTip s.db indexer
  rejectIf (curTip.1 ≠ block.header.prevBlock) Err.assertion
  let s ← indexer.connectBlock env addrs s block parent view
  pure (dbPutIndexerTip s indexer (env.blockHash block.header) block.header.height)

/-- `dbIndexDisconnectBlock`: disconnects a block and moves the tip back. -/
def dbIndexDisconnectBlock (indexer : Indexer) (s : Indexes) (block parent : MsgBlock)
    (view : UtxoViewpoint) :
    Except Err Indexes := do
  let curTip ← dbFetchIndexerTip s.db indexer
  rejectIf (curTip.1 ≠ env.blockHash block.header) Err.assertion
  let s ← indexer.disconnectBlock env addrs s block parent view
  pure (dbPutIndexerTip s indexer block.header.prevBlock (block.header.height - 1))

variable (cfg : IndexConfig)

/-- `ConnectBlock` of the manager: all enabled indexes in turn. -/
def Indexes.connectBlock (s : Indexes) (block parent : MsgBlock) (view : UtxoViewpoint) :
    Except Err Indexes :=
  cfg.enabledIndexes.foldlM (fun s indexer =>
    dbIndexConnectBlock env addrs indexer s block parent view) s

/-- `DisconnectBlock` of the manager: all enabled indexes in turn. -/
def Indexes.disconnectBlock (s : Indexes) (block parent : MsgBlock) (view : UtxoViewpoint) :
    Except Err Indexes :=
  cfg.enabledIndexes.foldlM (fun s indexer =>
    dbIndexDisconnectBlock env addrs indexer s block parent view) s

/-- The indexes as they are created, with the genesis block as their tip. -/
def newIndexes : Indexes :=
  ⟨⟨⟨∅, ∅, ∅⟩, fun _ _ => [], ∅, fun _ => some (env.blockHash genesis.header, 0)⟩, 0, ∅⟩

/-! ## Calls and their transactions -/

/-- A call in which the indexes run to their end: a block is connected or the last one is
disconnected, in a database transaction that is then committed or rolled back, or an unconfirmed
transaction is recorded. -/
inductive IndexCall
  | connectBlock (block : MsgBlock) (view : UtxoViewpoint) (commits : Bool)
  | disconnectBlock (view : UtxoViewpoint) (commits : Bool)
  | addUnconfirmedTx (tx : MsgTx)

/-- The indexes in use, with the connected blocks, newest first, and the addresses that unconfirmed
transactions have recorded so far. -/
structure IndexRun where
  indexes : Indexes
  blocks : List MsgBlock
  recorded : Finset AddrKey

/-- The end of the database transaction: a rollback leaves the database as it was before, and the
memory as it is. -/
def endTx (commits : Bool) (before after : Indexes) : Indexes :=
  { after with
    db := if commits then after.db else before.db }

/-- One call, whose transaction is committed or rolled back. -/
def IndexRun.serve (r : IndexRun) : IndexCall → Except Err IndexRun
  | .connectBlock block view commits => do
    let after ← r.indexes.connectBlock env addrs cfg block (tipOf genesis r.blocks) view
    pure { r with
      indexes := endTx commits r.indexes after
      blocks := if commits then block :: r.blocks else r.blocks }
  | .disconnectBlock view commits => match r.blocks with
    | [] => .error .assertion
    | block :: below => do
      let after ← r.indexes.disconnectBlock env addrs cfg block (tipOf genesis below) view
      pure { r with
        indexes := endTx commits r.indexes after
        blocks := if commits then below else block :: below }
  | .addUnconfirmedTx tx =>
    let idx := r.indexes.existsAddrIndex.addUnconfirmedTx env addrs tx
    .ok { r with
      indexes := { r.indexes with
        mpExistsAddr := idx.mpExistsAddr }
      recorded := r.recorded ∪ (existsKeys env addrs tx).toFinset }

/-- The largest number of a block in the database, or zero. -/
def largestBlockID (db : TxBuckets) : ℕ := db.hashByID.keys.max?.getD 0

/-- What is in memory agrees with the database: the number of the last block is the largest one
stored, and every address that was recorded is reported. -/
structure MemoryAgrees (cfg : IndexConfig) (r : IndexRun) : Prop where
  curBlockID :
    Indexer.txIndex ∈ cfg.enabledIndexes → r.indexes.curBlockID = largestBlockID r.indexes.db.tx
  existsAddress : Indexer.existsAddrIndex ∈ cfg.enabledIndexes →
    ∀ key ∈ r.recorded, r.indexes.existsAddrIndex.existsAddress key = true

/-- A call comes from the chain: a block that is connected is none of the connected ones, and their
number is in the range of a block ID. -/
def Follows (r : IndexRun) : IndexCall → Prop
  | .connectBlock block _ _ =>
    env.blockHash block.header ∉ (r.blocks.map fun b => env.blockHash b.header) ∧
    r.blocks.length + 1 < 2^32
  | .disconnectBlock _ _ => True
  | .addUnconfirmedTx _ => True

/-- A call does no harm: its transaction is committed, or what a rollback leaves in memory is not in
use. -/
def Harmless (r : IndexRun) : IndexCall → Prop
  | .connectBlock _ _ commits => commits = true ∨ Indexer.txIndex ∉ cfg.enabledIndexes ∧
    (Indexer.existsAddrIndex ∈ cfg.enabledIndexes →
      r.indexes.mpExistsAddr ⊆ r.indexes.db.existsAddr)
  | .disconnectBlock _ commits => commits = true ∨ Indexer.txIndex ∉ cfg.enabledIndexes
  | .addUnconfirmedTx _ => True

/-- Every call comes from the chain, and the indexes run to their end in it. -/
def AllServed : IndexRun → List IndexCall → Prop
  | _, [] => True
  | r, call :: calls =>
    Follows env r call ∧ ∃ r', r.serve env addrs genesis cfg call = .ok r' ∧ AllServed r' calls

/-- No call does harm. -/
def AllHarmless : IndexRun → List IndexCall → Prop
  | _, [] => True
  | r, call :: calls => Harmless cfg r call ∧
    ∀ r', r.serve env addrs genesis cfg call = .ok r' → AllHarmless r' calls

instance (r : IndexRun) : ∀ call, Decidable (Follows env r call)
  | .connectBlock .. => inferInstanceAs (Decidable (_ ∧ _))
  | .disconnectBlock .. | .addUnconfirmedTx _ => inferInstanceAs (Decidable True)

instance (r : IndexRun) : ∀ call, Decidable (Harmless cfg r call)
  | .connectBlock .. | .disconnectBlock .. => inferInstanceAs (Decidable (_ ∨ _))
  | .addUnconfirmedTx _ => inferInstanceAs (Decidable True)

instance : ∀ calls r, Decidable (AllServed env addrs genesis cfg r calls)
  | [], _ => inferInstanceAs (Decidable True)
  | _ :: calls, _ =>
    letI : DecidablePred fun r' => AllServed env addrs genesis cfg r' calls :=
      instDecidableAllServed calls
    inferInstanceAs (Decidable (_ ∧ ∃ r', _ ∧ AllServed env addrs genesis cfg r' calls))

instance : ∀ calls r, Decidable (AllHarmless env addrs genesis cfg r calls)
  | [], _ => inferInstanceAs (Decidable True)
  | _ :: calls, _ =>
    letI : DecidablePred fun r' => AllHarmless env addrs genesis cfg r' calls :=
      instDecidableAllHarmless calls
    inferInstanceAs (Decidable (_ ∧ ∀ r', _ → AllHarmless env addrs genesis cfg r' calls))

/-- Memory and database agree after each call. -/
def AgreesThroughout : IndexRun → List IndexCall → Prop
  | _, [] => True
  | r, call :: calls => ∀ r', r.serve env addrs genesis cfg call = .ok r' →
    MemoryAgrees cfg r' ∧ AgreesThroughout r' calls

/-! ## What the manager does to each index -/

section

variable {env addrs genesis cfg} {s s' : Indexes} {block parent : MsgBlock}
  {below blocks : List MsgBlock} {view : UtxoViewpoint} {indexer : Indexer} {db db' : TxBuckets}

/-- No index is enabled twice. -/
theorem nodup_enabledIndexes (cfg : IndexConfig) : cfg.enabledIndexes.Nodup := by
  obtain ⟨tx, addr, noExists⟩ := cfg
  cases tx <;> cases addr <;> cases noExists <;> decide

/-- One index is given a block, which `tx` and `ex` do for the transaction index and that of
existing addresses, and the others stay as they are. -/
def Gives (tx : TxIndex → Except Err TxIndex) (ex : ExistsAddrIndex → ExistsAddrIndex)
    (indexer : Indexer) (s s' : Indexes) : Prop :=
  (if indexer = .txIndex then tx s.txIndex = .ok s'.txIndex else s'.txIndex = s.txIndex) ∧
    s'.existsAddrIndex = if indexer = .existsAddrIndex then ex s.existsAddrIndex
      else s.existsAddrIndex

/-- What connecting a block does to one index. -/
theorem gives_dbIndexConnectBlock
    (h : dbIndexConnectBlock env addrs indexer s block parent view = .ok s') :
    Gives (·.connectBlock env block parent) (·.connectBlock env addrs block parent) indexer
      s s' := by
  simp only [dbIndexConnectBlock, bind_eq_ok, rejectIf_eq_ok, exists_const, pure_eq_ok] at h
  obtain ⟨_, _, _, s1, hs1, rfl⟩ := h
  cases indexer <;> simp only [Indexer.connectBlock, bind_eq_ok, pure_eq_ok, Except.ok.injEq] at hs1
  · obtain ⟨idx, hidx, rfl⟩ := hs1
    exact ⟨hidx, rfl⟩
  · obtain ⟨bucket, -, rfl⟩ := hs1
    exact ⟨rfl, rfl⟩
  · exact hs1 ▸ ⟨rfl, rfl⟩

/-- What disconnecting a block does to one index. -/
theorem gives_dbIndexDisconnectBlock
    (h : dbIndexDisconnectBlock env addrs indexer s block parent view = .ok s') :
    Gives (·.disconnectBlock env block parent) id indexer s s' := by
  simp only [dbIndexDisconnectBlock, bind_eq_ok, rejectIf_eq_ok, exists_const, pure_eq_ok] at h
  obtain ⟨_, _, _, s1, hs1, rfl⟩ := h
  cases indexer <;>
    simp only [Indexer.disconnectBlock, bind_eq_ok, pure_eq_ok, Except.ok.injEq] at hs1
  · obtain ⟨idx, hidx, rfl⟩ := hs1
    exact ⟨hidx, rfl⟩
  · obtain ⟨bucket, -, rfl⟩ := hs1
    exact ⟨rfl, rfl⟩
  · exact hs1 ▸ ⟨rfl, rfl⟩

/-- Each enabled index is given the block once. -/
theorem Gives.loop {tx : TxIndex → Except Err TxIndex} {ex : ExistsAddrIndex → ExistsAddrIndex}
    {f : Indexes → Indexer → Except Err Indexes}
    (hstep : ∀ {indexer s s'}, f s indexer = .ok s' → Gives tx ex indexer s s')
    (h : cfg.enabledIndexes.foldlM f s = .ok s') :
    (.txIndex ∈ cfg.enabledIndexes → tx s.txIndex = .ok s'.txIndex) ∧
      (.existsAddrIndex ∈ cfg.enabledIndexes → s'.existsAddrIndex = ex s.existsAddrIndex) := by
  have hnodup := nodup_enabledIndexes cfg
  constructor
  · intro hmem
    obtain ⟨s1, s2, hbefore, hgiven, hafter⟩ := foldlM_part Indexes.txIndex (fun _ _ hne _ _ hs' =>
      (if_neg hne).mp (hstep hs').1) hnodup hmem h
    rw [hafter, ← hbefore]
    exact (hstep hgiven).1
  · intro hmem
    obtain ⟨s1, s2, hbefore, hgiven, hafter⟩ :=
      foldlM_part Indexes.existsAddrIndex (fun _ _ hne _ _ hs' =>
      (hstep hs').2.trans (if_neg hne)) hnodup hmem h
    rw [hafter, ← hbefore]
    exact (hstep hgiven).2

/-! ## The numbers of the blocks -/

/-- The two buckets that number the blocks. -/
def TxBuckets.numbers (db : TxBuckets) := (db.hashByID, db.idByHash)

theorem NumbersBlocks.congr (h : NumbersBlocks env blocks db) (hsame : db'.numbers = db.numbers) :
    NumbersBlocks env blocks db' := by
  obtain ⟨hid, hhash⟩ := Prod.mk.inj hsame
  exact ⟨hid ▸ h.byID, hhash ▸ h.byHash, h.nodup⟩

theorem NumbersUpTo.largestBlockID_eq {n : ℕ} (h : NumbersUpTo db n) : largestBlockID db = n := by
  have hmem : ∀ id, id ∈ db.hashByID.keys ↔ 1 ≤ id ∧ id ≤ n := fun id => by
    rw [mem_keys, mem_iff_isSome_getElem?]
    exact h id
  unfold largestBlockID
  rcases Nat.eq_zero_or_pos n with rfl | hpos
  · have hempty : db.hashByID.keys = [] := by
      rw [List.eq_nil_iff_forall_not_mem]
      intro id hid
      have := (hmem id).1 hid
      omega
    rw [hempty]
    rfl
  · have hmax : db.hashByID.keys.max? = some n := by
      rw [List.max?_eq_some_iff]
      exact ⟨(hmem n).2 ⟨hpos, le_refl n⟩, fun id hid => ((hmem id).1 hid).2⟩
    rw [hmax, Option.getD_some]

theorem addEntries_numbers {txns : List MsgTx} {locs : List TxLoc} {id : ℕ}
    (h : addEntries env db txns locs id = .ok db') : db'.numbers = db.numbers := by
  unfold addEntries at h
  simp only [bind_eq_ok, rejectIf_eq_ok, exists_const, pure_eq_ok] at h
  obtain ⟨_, rfl⟩ := h
  rfl

theorem dbAddTxIndexEntries_numbers {id : ℕ}
    (h : dbAddTxIndexEntries env db block parent id = .ok db') :
    db'.numbers = db.numbers := by
  unfold dbAddTxIndexEntries at h
  split_ifs at h
  · simp only [bind_eq_ok] at h
    obtain ⟨_, _, _, _, db1, hparent, _, _, h⟩ := h
    exact (addEntries_numbers h).trans (addEntries_numbers hparent)
  · simp only [bind_eq_ok, pure_bind] at h
    obtain ⟨_, _, h⟩ := h
    exact addEntries_numbers h

theorem removeEntries_numbers {txns : List MsgTx} (h : removeEntries env db txns = .ok db') :
    db'.numbers = db.numbers := by
  refine foldlM_invariant (fun t : TxBuckets => t.numbers = db.numbers)
    (fun tx _ t t' ht hstep => ?_) rfl h
  unfold dbRemoveTxIndexEntry at hstep
  simp only [bind_eq_ok, rejectIf_eq_ok, exists_const, pure_eq_ok] at hstep
  obtain ⟨_, rfl⟩ := hstep
  exact ht

theorem dbRemoveTxIndexEntries_numbers (h : dbRemoveTxIndexEntries env db block parent = .ok db') :
    db'.numbers = db.numbers := by
  unfold dbRemoveTxIndexEntries at h
  split_ifs at h
  · obtain ⟨db1, hparent, h⟩ := bind_eq_ok.1 h
    exact (removeEntries_numbers h).trans (removeEntries_numbers hparent)
  · exact removeEntries_numbers h

variable {idx idx' : TxIndex} {r r' : IndexRun} {call : IndexCall} {calls : List IndexCall}

/-- The number in memory goes up. -/
theorem curBlockID_connectBlock (h : idx.connectBlock env block parent = .ok idx') :
    idx'.curBlockID = u32 (idx.curBlockID + 1) := by
  simp only [TxIndex.connectBlock, bind_eq_ok, pure_eq_ok] at h
  obtain ⟨db, _, rfl⟩ := h
  rfl

/-- The number in memory goes down. -/
theorem curBlockID_disconnectBlock (h : idx.disconnectBlock env block parent = .ok idx') :
    idx'.curBlockID = u32Sub idx.curBlockID 1 := by
  simp only [TxIndex.disconnectBlock, bind_eq_ok, pure_eq_ok] at h
  obtain ⟨db, _, rfl⟩ := h
  rfl

/-- A connected block gets the next number. -/
theorem NumbersBlocks.connectBlock (h : NumbersBlocks env below idx.db)
    (hcur : idx.curBlockID = below.length)
    (hfresh : env.blockHash block.header ∉ below.map fun b => env.blockHash b.header)
    (hlen : below.length + 1 < 2^32) (hconnect : idx.connectBlock env block parent = .ok idx') :
    NumbersBlocks env (block :: below) idx'.db ∧ idx'.curBlockID = (block :: below).length := by
  have hid : u32 (idx.curBlockID + 1) = below.length + 1 := by rw [hcur, u32_of_lt hlen]
  rw [curBlockID_connectBlock hconnect]
  simp only [TxIndex.connectBlock, bind_eq_ok, pure_eq_ok, hid] at hconnect
  obtain ⟨db, hadd, rfl⟩ := hconnect
  exact ⟨(h.congr (dbAddTxIndexEntries_numbers hadd)).put hfresh, hid⟩

/-- A disconnected block gives its number back. -/
theorem NumbersBlocks.disconnectBlock (h : NumbersBlocks env (block :: below) idx.db)
    (hcur : idx.curBlockID = (block :: below).length) (hlen : (block :: below).length < 2^32)
    (hdisconnect : idx.disconnectBlock env block parent = .ok idx') :
    NumbersBlocks env below idx'.db ∧ idx'.curBlockID = below.length := by
  have hid : u32Sub idx.curBlockID 1 = below.length := by
    rw [List.length_cons] at hcur hlen
    rw [hcur, u32Sub]
    omega
  rw [curBlockID_disconnectBlock hdisconnect]
  simp only [TxIndex.disconnectBlock, bind_eq_ok, pure_eq_ok] at hdisconnect
  obtain ⟨db, hremove, rfl⟩ := hdisconnect
  exact ⟨(h.congr (dbRemoveTxIndexEntries_numbers hremove)).remove, hid⟩

/-! ## Every run -/

/-- What the calls keep as long as they do no harm. -/
structure Tracks (env : Env) (cfg : IndexConfig) (r : IndexRun) : Prop where
  length : r.blocks.length < 2^32
  numbers : Indexer.txIndex ∈ cfg.enabledIndexes → NumbersBlocks env r.blocks r.indexes.txIndex.db ∧
    r.indexes.txIndex.curBlockID = r.blocks.length
  kept : Indexer.existsAddrIndex ∈ cfg.enabledIndexes → r.indexes.mpExistsAddr ⊆ r.recorded
  reported : Indexer.existsAddrIndex ∈ cfg.enabledIndexes →
    r.recorded ⊆ r.indexes.db.existsAddr ∪ r.indexes.mpExistsAddr

section

variable (h : Tracks env cfg r)

include h

/-- A tracked index agrees with its memory. -/
theorem Tracks.memoryAgrees : MemoryAgrees cfg r where
  curBlockID hmem := by
    obtain ⟨hnumbers, hcur⟩ := h.numbers hmem
    exact hcur.trans hnumbers.numbersUpTo.largestBlockID_eq.symm
  existsAddress hmem key hkey := by
    rw [ExistsAddrIndex.existsAddress, Bool.or_eq_true, decide_eq_true_eq, decide_eq_true_eq]
    exact mem_union.1 (h.reported hmem hkey)

omit h in
/-- A new index is tracked. -/
theorem Tracks.new (env : Env) (genesis : MsgBlock) (cfg : IndexConfig) :
    Tracks env cfg ⟨newIndexes env genesis, [], ∅⟩ :=
  ⟨Nat.two_pow_pos 32, fun _ => ⟨⟨Holds.empty, Holds.empty, List.nodup_nil⟩, rfl⟩,
    fun _ => empty_subset _, fun _ => empty_subset _⟩

/-- `ConnectBlock`, committed or rolled back. -/
theorem Tracks.connectBlock {commits : Bool}
    (hfollows : Follows env r (.connectBlock block view commits))
    (hserve : r.serve env addrs genesis cfg (.connectBlock block view commits) = .ok r') :
    (Harmless cfg r (.connectBlock block view commits) → Tracks env cfg r') ∧
      (MemoryAgrees cfg r' → Harmless cfg r (.connectBlock block view commits)) := by
  simp only [IndexRun.serve, bind_eq_ok, pure_eq_ok] at hserve
  obtain ⟨after, hafter, rfl⟩ := hserve
  have hgiven := Gives.loop gives_dbIndexConnectBlock hafter
  have hexists : Indexer.existsAddrIndex ∈ cfg.enabledIndexes → after.mpExistsAddr = ∅ ∧
      r.indexes.db.existsAddr ∪ r.indexes.mpExistsAddr ⊆ after.db.existsAddr := by
    intro hmem
    have heq := hgiven.2 hmem
    have hbucket : after.db.existsAddr = (r.indexes.existsAddrIndex.connectBlock env addrs block
        (tipOf genesis r.blocks)).bucket := congrArg ExistsAddrIndex.bucket heq
    refine ⟨congrArg ExistsAddrIndex.mpExistsAddr heq, ?_⟩
    rw [hbucket]
    exact union_subset_union (Finset.Subset.refl _) subset_union_right
  cases commits with
  | true =>
    refine ⟨fun _ => ⟨hfollows.2, fun hmem => ?_, fun hmem => ?_, fun hmem => ?_⟩,
      fun _ => .inl rfl⟩
    · obtain ⟨hnumbers, hcur⟩ := h.numbers hmem
      exact hnumbers.connectBlock hcur hfollows.1 hfollows.2 (hgiven.1 hmem)
    · exact (hexists hmem).1 ▸ empty_subset _
    · exact ((h.reported hmem).trans (hexists hmem).2).trans subset_union_left
  | false =>
    constructor
    · rintro (hfalse | ⟨htx, hstored⟩)
      · cases hfalse
      · refine ⟨h.length, fun hmem => absurd hmem htx, fun hmem => ?_, fun hmem => ?_⟩
        · exact (hexists hmem).1 ▸ empty_subset _
        · have hsub := union_subset (Finset.Subset.refl _) (hstored hmem)
          exact ((h.reported hmem).trans hsub).trans subset_union_left
    · intro hagrees
      refine .inr ⟨fun hmem => ?_, fun hmem key hkey => ?_⟩
      · -- the block is counted and is not stored
        have hbefore : r.indexes.curBlockID = largestBlockID r.indexes.db.tx :=
          h.memoryAgrees.curBlockID hmem
        have hsame : after.curBlockID = largestBlockID r.indexes.db.tx := hagrees.curBlockID hmem
        have hnext : after.curBlockID = u32 (r.indexes.curBlockID + 1) :=
          curBlockID_connectBlock (hgiven.1 hmem)
        rw [u32] at hnext
        omega
      · -- an address that is no longer in memory has to be stored
        have hreported := hagrees.existsAddress hmem key (h.kept hmem hkey)
        rw [ExistsAddrIndex.existsAddress, Bool.or_eq_true, decide_eq_true_eq,
          decide_eq_true_eq] at hreported
        rcases hreported with hstored | hmemory
        · exact hstored
        · have hempty : key ∈ after.mpExistsAddr := hmemory
          rw [(hexists hmem).1] at hempty
          exact absurd hempty (notMem_empty key)

/-- `DisconnectBlock`, committed or rolled back. -/
theorem Tracks.disconnectBlock {commits : Bool}
    (hserve : r.serve env addrs genesis cfg (.disconnectBlock view commits) = .ok r') :
    (Harmless cfg r (.disconnectBlock view commits) → Tracks env cfg r') ∧
      (MemoryAgrees cfg r' → Harmless cfg r (.disconnectBlock view commits)) := by
  obtain ⟨indexes, blocks, recorded⟩ := r
  cases blocks with
  | nil => cases hserve
  | cons block below =>
    simp only [IndexRun.serve, bind_eq_ok, pure_eq_ok] at hserve
    obtain ⟨after, hafter, rfl⟩ := hserve
    have hgiven := Gives.loop gives_dbIndexDisconnectBlock hafter
    have hexists :
        Indexer.existsAddrIndex ∈ cfg.enabledIndexes → after.db.existsAddr = indexes.db.existsAddr ∧
        after.mpExistsAddr = indexes.mpExistsAddr := fun hmem =>
      ⟨congrArg ExistsAddrIndex.bucket (hgiven.2 hmem),
        congrArg ExistsAddrIndex.mpExistsAddr (hgiven.2 hmem)⟩
    cases commits with
    | true =>
      refine ⟨fun _ => ⟨?_, fun hmem => ?_, fun hmem => ?_, fun hmem => ?_⟩, fun _ => .inl rfl⟩
      · exact lt_trans (Nat.lt_succ_self _) h.length
      · obtain ⟨hnumbers, hcur⟩ := h.numbers hmem
        exact hnumbers.disconnectBlock hcur h.length (hgiven.1 hmem)
      · exact (hexists hmem).2 ▸ h.kept hmem
      · have hreported := h.reported hmem
        rw [← (hexists hmem).1, ← (hexists hmem).2] at hreported
        exact hreported
    | false =>
      constructor
      · rintro (hfalse | htx)
        · cases hfalse
        · refine ⟨h.length, fun hmem => absurd hmem htx, fun hmem => ?_, fun hmem => ?_⟩
          · exact (hexists hmem).2 ▸ h.kept hmem
          · have hreported := h.reported hmem
            rw [← (hexists hmem).2] at hreported
            exact hreported
      · intro hagrees
        refine .inr fun hmem => ?_
        have hbefore : indexes.curBlockID = largestBlockID indexes.db.tx :=
          h.memoryAgrees.curBlockID hmem
        have hsame : after.curBlockID = largestBlockID indexes.db.tx := hagrees.curBlockID hmem
        have hnext : after.curBlockID = u32Sub indexes.curBlockID 1 :=
          curBlockID_disconnectBlock (hgiven.1 hmem)
        rw [u32Sub] at hnext
        omega

theorem Tracks.addUnconfirmedTx {tx : MsgTx}
    (hserve : r.serve env addrs genesis cfg (.addUnconfirmedTx tx) = .ok r') :
    Tracks env cfg r' := by
  cases hserve
  refine ⟨h.length, h.numbers, fun hmem => ?_, fun hmem => ?_⟩
  · exact union_subset_union (h.kept hmem) (Finset.Subset.refl _)
  · calc r.recorded ∪ (existsKeys env addrs tx).toFinset
        ⊆ (r.indexes.db.existsAddr ∪ r.indexes.mpExistsAddr) ∪ (existsKeys env addrs tx).toFinset :=
          union_subset_union (h.reported hmem) (Finset.Subset.refl _)
      _ = r.indexes.db.existsAddr ∪ (r.indexes.mpExistsAddr ∪ (existsKeys env addrs tx).toFinset) :=
          union_assoc _ _ _

/-- Every call: harmless ones keep the index tracked, and only they do. -/
theorem Tracks.serve (hfollows : Follows env r call)
    (hserve : r.serve env addrs genesis cfg call = .ok r') :
    (Harmless cfg r call → Tracks env cfg r') ∧ (MemoryAgrees cfg r' → Harmless cfg r call) := by
  cases call with
  | connectBlock block view commits => exact h.connectBlock hfollows hserve
  | disconnectBlock view commits => exact h.disconnectBlock hserve
  | addUnconfirmedTx tx => exact ⟨fun _ => h.addUnconfirmedTx hserve, fun _ => trivial⟩

/-- A run agrees throughout iff each of its calls is harmless. -/
theorem Tracks.agreesThroughout_iff (hserved : AllServed env addrs genesis cfg r calls) :
    AgreesThroughout env addrs genesis cfg r calls ↔ AllHarmless env addrs genesis cfg r calls := by
  induction calls generalizing r with
  | nil => exact Iff.rfl
  | cons call calls ih =>
    obtain ⟨hfollows, r', hserve, hserved⟩ := hserved
    obtain ⟨hkeeps, hagrees⟩ := h.serve hfollows hserve
    constructor
    · intro hall
      obtain ⟨hnow, hlater⟩ := hall r' hserve
      refine ⟨hagrees hnow, fun r'' hserve' => ?_⟩
      cases hserve.symm.trans hserve'
      exact (ih (hkeeps (hagrees hnow)) hserved).1 hlater
    · rintro ⟨hharmless, hall⟩ r'' hserve'
      cases hserve.symm.trans hserve'
      have htracks := hkeeps hharmless
      exact ⟨htracks.memoryAgrees, (ih htracks hserved).2 (hall r' hserve)⟩

end

/-- In every run of calls in which the indexes run to their end, memory and database agree after
each call if and only if no call does harm. -/
theorem agreesThroughout_iff_allHarmless
    (h : AllServed env addrs genesis cfg ⟨newIndexes env genesis, [], ∅⟩ calls) :
    AgreesThroughout env addrs genesis cfg ⟨newIndexes env genesis, [], ∅⟩ calls ↔
      AllHarmless env addrs genesis cfg ⟨newIndexes env genesis, [], ∅⟩ calls :=
  (Tracks.new env genesis cfg).agreesThroughout_iff h

end

/-! ## A block whose transaction is rolled back -/

/-- A transaction that pays to the address 7 waits for a block. -/
def waitingTx : MsgTx := plainTx 50 [spend 10 0 0 1000 1 0] [payTo 7 1000]

/-- A view without entries. -/
def emptyView : UtxoViewpoint := ⟨∅, 0, .prevRegular⟩

/-- An unconfirmed transaction is recorded and the first block comes, in a transaction that is
committed or not. -/
def waitingCalls (commits : Bool) : List IndexCall :=
  [.addUnconfirmedTx waitingTx, .connectBlock (fullHeader sampleBlockOne) emptyView commits]

/-- The indexes at their start. -/
def newRun (env : Env) : IndexRun := ⟨newIndexes env env.params.genesisBlock, [], ∅⟩

/-- With the index of existing addresses only, the first block is rolled back before a transaction
is recorded, and its disconnection after it was connected. -/
def rolledBackCalls : List IndexCall :=
  [.connectBlock (fullHeader sampleBlockOne) emptyView false] ++ waitingCalls true ++
    [.disconnectBlock emptyView false, .disconnectBlock emptyView true]

/-- The calls of a run are served and leave memory and database in agreement. -/
def ServedAndAgrees (env : Env) (cfg : IndexConfig) (calls : List IndexCall) : Prop :=
  AllServed env sampleAddrs env.params.genesisBlock cfg (newRun env) calls ∧
    AgreesThroughout env sampleAddrs env.params.genesisBlock cfg (newRun env) calls

/-- Calls that are rolled back. -/
theorem agreesThroughout_iff_rolledBackCalls :
    ServedAndAgrees (sampleEnv sampleParams) ⟨true, true, false⟩
        (waitingCalls true ++ [.disconnectBlock emptyView true]) ∧
      ServedAndAgrees (sampleEnv sampleParams) ⟨false, false, false⟩ rolledBackCalls := by
  have hserved :
      AllServed (sampleEnv sampleParams) sampleAddrs (sampleEnv sampleParams).params.genesisBlock
      ⟨true, true, false⟩ (newRun (sampleEnv sampleParams))
      (waitingCalls true ++ [.disconnectBlock emptyView true]) := by decide +kernel
  have hrolled :
      AllServed (sampleEnv sampleParams) sampleAddrs (sampleEnv sampleParams).params.genesisBlock
      ⟨false, false, false⟩ (newRun (sampleEnv sampleParams)) rolledBackCalls := by decide +kernel
  exact ⟨⟨hserved, (agreesThroughout_iff_allHarmless hserved).2 (by decide +kernel)⟩,
    ⟨hrolled, (agreesThroughout_iff_allHarmless hrolled).2 (by decide +kernel)⟩⟩

/-- The first block is accepted, the indexes run, and the transaction is rolled back. The number of
the last block is then one, though no block is stored, and the address 7 is no longer reported. -/
theorem exists_disagreement_after_rollback :
    (processBlock (sampleEnv sampleParams) (genesisState (sampleEnv sampleParams)) 10
      (fullHeader sampleBlockOne)).isOk = true ∧
    AllServed (sampleEnv sampleParams) sampleAddrs (sampleEnv sampleParams).params.genesisBlock
      ⟨true, true, false⟩ (newRun (sampleEnv sampleParams)) (waitingCalls false) ∧
    ∃ r, (waitingCalls false).foldlM (IndexRun.serve (sampleEnv sampleParams) sampleAddrs
        (sampleEnv sampleParams).params.genesisBlock ⟨true, true, false⟩)
          (newRun (sampleEnv sampleParams)) = .ok r ∧
      r.indexes.curBlockID = 1 ∧ largestBlockID r.indexes.db.tx = 0 ∧
      7 ∈ r.recorded ∧ r.indexes.existsAddrIndex.existsAddress 7 = false := by
  decide +kernel

end Hcashd.Indexers
