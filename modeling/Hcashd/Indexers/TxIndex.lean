import Hcashd.Blockchain.Utxo

/-!
# The transaction index

`blockchain/indexers/txindex.go`: for the hash of a transaction, the block that holds it and the
place in the bytes of that block. Blocks are named by numbers, which count the connected blocks from
one on, and `TxIndex.Init` finds the last of these numbers again by a forward scan in large steps
and a binary search. `ConnectBlock` adds the stake transactions of the block and, when the block
approves them, the regular transactions of its parent; `DisconnectBlock` removes the same
transactions.
-/

namespace Hcashd.Indexers

open Lib Blockchain

/-- The value of `txbyhashidx`, as `putTxIndexEntry` writes it: three unsigned 32-bit numbers. -/
structure TxIndexEntry where
  blockID : ℕ
  txStart : ℕ
  txLen : ℕ
  deriving DecidableEq, Repr

/-- The buckets of the transaction index. -/
structure TxBuckets where
  txByHash : Std.ExtTreeMap Hash TxIndexEntry
  idByHash : Std.ExtTreeMap Hash ℕ
  hashByID : Std.ExtTreeMap ℕ Hash

/-- `BlockRegion`: bytes of a serialized block. -/
structure BlockRegion where
  hash : Hash
  offset : ℕ
  len : ℕ
  deriving DecidableEq, Repr

/-- `approvesParent`: the first vote bit of a block. -/
def approvesParent (block : MsgBlock) : Bool := blockValid block.header.voteBits

/-- The condition under which every index takes up the regular transactions of the parent. -/
def indexesParent (block : MsgBlock) : Bool :=
  approvesParent block && decide (1 < block.header.height)

/-! ## Block numbers -/

/-- `dbPutBlockIDIndexEntry`: stores the number of a block in both buckets. -/
def dbPutBlockIDIndexEntry (db : TxBuckets) (hash : Hash) (id : ℕ) : TxBuckets :=
  { db with idByHash := db.idByHash.insert hash id, hashByID := db.hashByID.insert id hash }

/-- `dbRemoveBlockIDIndexEntry`: drops the number of a block. -/
def dbRemoveBlockIDIndexEntry (db : TxBuckets) (hash : Hash) : TxBuckets :=
  match db.idByHash[hash]? with
  | none => db
  | some id => { db with idByHash := db.idByHash.erase hash, hashByID := db.hashByID.erase id }

/-- `dbFetchBlockIDByHash`: the number of a block. -/
def dbFetchBlockIDByHash (db : TxBuckets) (hash : Hash) : Except Err ℕ :=
  match db.idByHash[hash]? with
  | none => .error .other
  | some id => .ok id

/-- `dbFetchBlockHashByID`: the block of a number. -/
def dbFetchBlockHashByID (db : TxBuckets) (id : ℕ) : Except Err Hash :=
  match db.hashByID[id]? with
  | none => .error .other
  | some hash => .ok hash

/-! ## Entries -/

/-- `putTxIndexEntry`: a block number and a place in the block. -/
def putTxIndexEntry (blockID : ℕ) (txLoc : TxLoc) : TxIndexEntry :=
  ⟨blockID, u32 txLoc.txStart, u32 txLoc.txLen⟩

/-- `dbFetchTxIndexEntry`: the region of a transaction, if it is indexed. -/
def dbFetchTxIndexEntry (db : TxBuckets) (txHash : Hash) : Except Err (Option BlockRegion) :=
  match db.txByHash[txHash]? with
  | none => .ok none
  | some entry => do
    let hash ← dbFetchBlockHashByID db entry.blockID
    pure (some ⟨hash, entry.txStart, entry.txLen⟩)

variable (env : Env)

/-- The places of the transactions in the bytes of a block. -/
def txLoc (block : MsgBlock) : Except Err (List TxLoc × List TxLoc) :=
  match env.txLoc block with
  | none => .error .other
  | some locs => .ok locs

/-- The closure `addEntries`. Fewer places than transactions are an index out of range. -/
def addEntries (db : TxBuckets) (txns : List MsgTx) (txLocs : List TxLoc) (blockID : ℕ) :
    Except Err TxBuckets := do
  rejectIf (txLocs.length < txns.length) Err.panic
  pure { db with txByHash := (txns.zip txLocs).foldl (fun index p =>
    index.insert (env.txHash p.1) (putTxIndexEntry blockID p.2)) db.txByHash }

/-- `dbAddTxIndexEntries`: the parent's regular tree if approved, and the stake tree. -/
def dbAddTxIndexEntries (db : TxBuckets) (block parent : MsgBlock) (blockID : ℕ) :
    Except Err TxBuckets := do
  let db ← if indexesParent block then do
      let locs ← txLoc env parent
      let parentBlockID ← dbFetchBlockIDByHash db (env.blockHash parent.header)
      addEntries env db parent.transactions locs.1 parentBlockID
    else pure db
  let locs ← txLoc env block
  addEntries env db block.sTransactions locs.2 blockID

/-- `dbRemoveTxIndexEntry`: an entry that must be there. -/
def dbRemoveTxIndexEntry (db : TxBuckets) (txHash : Hash) : Except Err TxBuckets := do
  rejectIf (txHash ∉ db.txByHash) Err.other
  pure { db with txByHash := db.txByHash.erase txHash }

/-- The closure `removeEntries`. -/
def removeEntries (db : TxBuckets) (txns : List MsgTx) : Except Err TxBuckets :=
  txns.foldlM (fun db tx => dbRemoveTxIndexEntry db (env.txHash tx)) db

/-- `dbRemoveTxIndexEntries`: the entries that a block has added. -/
def dbRemoveTxIndexEntries (db : TxBuckets) (block parent : MsgBlock) : Except Err TxBuckets := do
  let db ← if indexesParent block then removeEntries env db parent.transactions else pure db
  removeEntries env db block.sTransactions

/-! ## The index -/

/-- `TxIndex`: its buckets and the number of the last connected block. -/
structure TxIndex where
  db : TxBuckets
  curBlockID : ℕ

/-- The index as it is created. -/
def newTxIndex : TxIndex := ⟨⟨∅, ∅, ∅⟩, 0⟩

/-- The step of the forward scan. -/
def increment : ℕ := 100000

/-- The forward scan of `TxIndex.Init`: from a number on, in steps of `increment`, the last number
found to be in use and the first one found not to be. -/
def scanForward (db : TxBuckets) : ℕ → ℕ → ℕ → Except Err (ℕ × ℕ)
  | 0, _, _ => .error .outOfFuel
  | fuel + 1, highestKnown, testBlockID =>
    match db.hashByID[testBlockID]? with
    | none => .ok (highestKnown, testBlockID)
    | some _ => scanForward db fuel testBlockID (u32 (testBlockID + increment))

/-- The binary search of `TxIndex.Init`. -/
def searchBlockID (db : TxBuckets) : ℕ → ℕ → ℕ → Except Err ℕ
  | 0, _, _ => .error .outOfFuel
  | fuel + 1, highestKnown, nextUnknown =>
    let testBlockID := u32 (highestKnown + nextUnknown) / 2
    let (highestKnown, nextUnknown) := match db.hashByID[testBlockID]? with
      | none => (highestKnown, testBlockID)
      | some _ => (testBlockID, nextUnknown)
    if u32 (highestKnown + 1) = nextUnknown then .ok highestKnown
    else searchBlockID db fuel highestKnown nextUnknown

/-- `TxIndex.Init`: the number of the last connected block, by the numbers in use. -/
def TxIndex.init (db : TxBuckets) : Except Err TxIndex := do
  let (highestKnown, nextUnknown) ← scanForward db (2^32) 0 1
  if nextUnknown = 1 then pure ⟨db, 0⟩
  else do pure ⟨db, ← searchBlockID db increment highestKnown nextUnknown⟩

/-- `ConnectBlock` of the transaction index. -/
def TxIndex.connectBlock (idx : TxIndex) (block parent : MsgBlock) : Except Err TxIndex := do
  let newBlockID := u32 (idx.curBlockID + 1)
  let db ← dbAddTxIndexEntries env idx.db block parent newBlockID
  pure ⟨dbPutBlockIDIndexEntry db (env.blockHash block.header) newBlockID, newBlockID⟩

/-- `DisconnectBlock` of the transaction index. -/
def TxIndex.disconnectBlock (idx : TxIndex) (block parent : MsgBlock) : Except Err TxIndex := do
  let db ← dbRemoveTxIndexEntries env idx.db block parent
  pure ⟨dbRemoveBlockIDIndexEntry db (env.blockHash block.header), u32Sub idx.curBlockID 1⟩

/-- `TxBlockRegion`: where a transaction is stored. -/
def TxIndex.txBlockRegion (idx : TxIndex) (hash : Hash) : Except Err (Option BlockRegion) :=
  dbFetchTxIndexEntry idx.db hash

/-! ## The last number is found again -/

section

variable {db : TxBuckets} {n : ℕ}

/-- The numbers in use are those from one to `n`. -/
def NumbersUpTo (db : TxBuckets) (n : ℕ) : Prop :=
  ∀ id, db.hashByID[id]?.isSome = true ↔ 1 ≤ id ∧ id ≤ n

/-- The binary search closes in on the last number in use: the lower end is always in use and the
upper one is not, and each turn narrows the interval. -/
theorem searchBlockID_eq (h : NumbersUpTo db n) (hn : 2 * n + increment < 2^32) :
    ∀ fuel low high, 1 ≤ low → low ≤ n → n < high → high ≤ n + increment → low + 2 ≤ high →
      high ≤ low + fuel + 1 → searchBlockID db fuel low high = .ok n := by
  intro fuel
  induction fuel with
  | zero => intro low high _ _ _ _ hgap hfuel; omega
  | succ fuel ih =>
    intro low high hone hlow hhigh hbound hgap hfuel
    have hsum : u32 (low + high) = low + high := u32_of_lt (by omega)
    rw [searchBlockID, hsum]
    have hmid := h ((low + high) / 2)
    cases hget : db.hashByID[(low + high) / 2]? with
    | none =>
      rw [hget] at hmid
      have hlt : ¬ (1 ≤ (low + high) / 2 ∧ (low + high) / 2 ≤ n) :=
        fun hle => by simpa using hmid.2 hle
      simp only
      rw [u32_of_lt (show low + 1 < 2^32 by omega)]
      split_ifs with hdone
      · rw [show low = n by omega]
      · exact ih low _ hone hlow (by omega) (by omega) (by omega) (by omega)
    | some hash =>
      rw [hget] at hmid
      obtain ⟨_, hle⟩ := hmid.1 rfl
      simp only
      rw [u32_of_lt (show (low + high) / 2 + 1 < 2^32 by omega)]
      split_ifs with hdone
      · rw [show (low + high) / 2 = n by omega]
      · exact ih _ high (by omega) hle hhigh hbound (by omega) (by omega)

/-- The scan stops above the largest number. -/
theorem scanForward_eq (h : NumbersUpTo db n) (hn : 2 * n + increment < 2^32) :
    ∀ fuel low, low ≤ n → n < low + increment * fuel → 1 ≤ low →
      ∃ high, scanForward db (fuel + 1) low (low + increment) = .ok (high, high + increment) ∧
        1 ≤ high ∧ high ≤ n ∧ n < high + increment := by
  intro fuel
  induction fuel with
  | zero => intro low hle hlt; omega
  | succ fuel ih =>
    intro low hle hlt hone
    rw [scanForward]
    have htest := h (low + increment)
    cases hget : db.hashByID[low + increment]? with
    | none =>
      rw [hget] at htest
      have hgt : ¬ (1 ≤ low + increment ∧ low + increment ≤ n) :=
        fun hle => by simpa using htest.2 hle
      exact ⟨low, rfl, hone, hle, by omega⟩
    | some hash =>
      rw [hget] at htest
      obtain ⟨_, hle'⟩ := htest.1 rfl
      simp only
      rw [u32_of_lt (show low + increment + increment < 2^32 by omega)]
      refine ih (low + increment) hle' ?_ (by omega)
      rw [Nat.mul_succ] at hlt
      omega

/-- `TxIndex.Init` finds the last number in use. -/
theorem init_eq (h : NumbersUpTo db n) (hn : 2 * n + increment < 2^32) :
    TxIndex.init db = .ok ⟨db, n⟩ := by
  have hone := h 1
  unfold TxIndex.init
  rw [show (2^32 : ℕ) = (2^32 - 1) + 1 from rfl, scanForward]
  cases hget : db.hashByID[1]? with
  | none =>
    rw [hget] at hone
    have hzero : n = 0 := by
      by_contra hne
      simpa using hone.2 ⟨le_refl 1, Nat.one_le_iff_ne_zero.2 hne⟩
    rw [hzero]
    rfl
  | some hash =>
    rw [hget] at hone
    obtain ⟨_, hle⟩ := hone.1 rfl
    simp only
    rw [u32_of_lt (show 1 + increment < 2^32 by decide),
      show (2^32 - 1 : ℕ) = (2^32 - 2) + 1 from rfl]
    obtain ⟨high, hscan, hhigh, hle', hlt⟩ := scanForward_eq h hn (2^32 - 2) 1 hle
      (by unfold increment; omega) (le_refl 1)
    have hne : high + increment ≠ 1 := by
      unfold increment
      omega
    rw [hscan, ok_bind, if_neg hne,
      searchBlockID_eq h hn increment high (high + increment) hhigh hle' hlt
      (by omega) (by unfold increment; omega) (by omega)]
    rfl

end

end Hcashd.Indexers
