import Hcashd.Lib.Overlay

/-!
# The cache of the database

`dbcache.go`: changes of the metadata are kept in two treaps, of keys to put and of keys to remove,
before they are written to leveldb. Treaps and leveldb are maps from byte strings, ordered as
`bytes.Compare` orders them. A transaction of leveldb is atomic.

A snapshot reads what was committed, whether the changes are in the cache or were flushed
(`commitAll_spec`).
-/

namespace Hcashd.Database

open Lib Std.ExtTreeMap

/-- A key of the flat key space. -/
abbrev Key := List UInt8

/-- A value of the flat key space. -/
abbrev Value := List UInt8

/-- `dbCacheSnapshot`: a snapshot of leveldb, and the treaps of the cache. -/
structure DbCacheSnapshot where
  dbSnapshot : Std.ExtTreeMap Key Value
  pending : Overlay Key Value

/-- `Has`: whether a key has a value. -/
def DbCacheSnapshot.has (snap : DbCacheSnapshot) (key : Key) : Bool :=
  if key ∈ snap.pending.removes then false
  else if key ∈ snap.pending.puts then true
  else snap.dbSnapshot.contains key

/-- `Get`: the value of a key. -/
def DbCacheSnapshot.get (snap : DbCacheSnapshot) (key : Key) : Option Value :=
  snap.pending.read (fun key => snap.dbSnapshot[key]?) key

/-- `dbCache`, with `cachedKeys` and `cachedRemove` as one overlay. -/
structure DbCache where
  ldb : Std.ExtTreeMap Key Value
  cached : Overlay Key Value

namespace DbCache

/-- `Snapshot`, where nothing comes in between. -/
def snapshot (c : DbCache) : DbCacheSnapshot := ⟨c.ldb, c.cached⟩

/-- `commitTreaps`: writes pending changes to leveldb. -/
def commitTreaps (c : DbCache) (pending : Overlay Key Value) : DbCache :=
  { c with ldb := pending.write c.ldb }

/-- `flush`, without the files of the blocks. -/
def flush (c : DbCache) : DbCache :=
  if c.cached.isEmpty then c else { c.commitTreaps c.cached with cached := .empty }

/-- `commitTx`. Whether a flush is needed depends on the time and on the sizes of the treaps. -/
def commitTx (c : DbCache) (needsFlush : Bool) (tx : Overlay Key Value) : DbCache :=
  if needsFlush then c.flush.commitTreaps tx
  else { c with cached := c.cached.merge tx }

end DbCache

variable (snap : DbCacheSnapshot) (c : DbCache)

/-- `Has` is whether `Get` finds a value. -/
theorem DbCacheSnapshot.has_eq (key : Key) : snap.has key = (snap.get key).isSome := by
  rw [has, get, Overlay.read]
  split_ifs with hremove hput
  · rfl
  · rw [mem_iff_isSome_getElem?] at hput
    rw [Option.isSome_or, hput, Bool.true_or]
  · rw [mem_iff_isSome_getElem?, Bool.not_eq_true] at hput
    rw [Option.isSome_or, hput, Bool.false_or, contains_eq_isSome_getElem?]

namespace DbCache

theorem get_snapshot : c.snapshot.get = c.cached.read fun key => c.ldb[key]? := rfl

/-- What a snapshot reads after treaps were written. -/
theorem get_snapshot_commitTreaps (pending : Overlay Key Value) (h : c.cached = .empty) :
    (c.commitTreaps pending).snapshot.get = pending.read c.snapshot.get := by
  funext key
  rw [get_snapshot, get_snapshot, commitTreaps, h, Overlay.read_empty, Overlay.read_empty,
    Overlay.getElem?_write]

/-- A flush empties the cache. -/
theorem cached_flush : c.flush.cached = .empty := by
  rw [flush]
  split_ifs with h
  · exact c.cached.eq_empty_of_isEmpty h
  · rfl

/-- A flush changes nothing that is read. -/
theorem get_snapshot_flush : c.flush.snapshot.get = c.snapshot.get := by
  funext key
  rw [flush]
  split_ifs with h
  · rfl
  · rw [get_snapshot, get_snapshot, commitTreaps, Overlay.read_empty, Overlay.getElem?_write]

/-- A snapshot reads what was committed. -/
theorem get_snapshot_commitTx (needsFlush : Bool) (tx : Overlay Key Value) :
    (c.commitTx needsFlush tx).snapshot.get = tx.read c.snapshot.get := by
  rw [commitTx]
  split_ifs with h
  · rw [get_snapshot_commitTreaps _ _ c.cached_flush, get_snapshot_flush]
  · exact Overlay.read_merge _ _ _

variable (txs : List (Bool × Overlay Key Value))

/-- Commits, each with a flush before it or without. -/
def commitAll : DbCache := txs.foldl (fun c tx => c.commitTx tx.1 tx.2) c

/-- When the cache was flushed makes no difference to readers, nor to leveldb after the next
flush. -/
theorem commitAll_spec :
    (c.commitAll txs).snapshot.get = txs.foldl (fun get tx => tx.2.read get) c.snapshot.get ∧
    ∀ key, (c.commitAll txs).snapshot.has key = ((c.commitAll txs).snapshot.get key).isSome ∧
      (c.commitAll txs).flush.ldb[key]? = (c.commitAll txs).snapshot.get key := by
  refine ⟨?_, fun key => ⟨DbCacheSnapshot.has_eq _ _, ?_⟩⟩
  · induction txs generalizing c with
    | nil => rfl
    | cons tx txs ih => exact (ih _).trans (by rw [get_snapshot_commitTx]; rfl)
  · rw [← get_snapshot_flush, get_snapshot, cached_flush, Overlay.read_empty]

end DbCache

end Hcashd.Database
