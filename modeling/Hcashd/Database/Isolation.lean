import Hcashd.Database.Cache

/-!
# Readers between commits

`begin` of a read-only transaction takes a snapshot of leveldb, and then, under another lock, the
treaps of the cache. A commit that needs a flush writes the cache to leveldb, clears it, and writes
its own changes to leveldb. These steps come in any order, for any number of readers and one writer.

A reader whose snapshot of leveldb is older than a flush and that takes the treaps after they were
cleared reads a state that never was: the flushed changes are in neither
(`exists_reader_without_committed`). The same happens to changes that went to leveldb directly, if a
later commit goes to the cache before the treaps are taken. Where the treaps are kept for such a
reader, every reader sees the state after some first transactions (`isPrefix_of_reachable`). A flush
that a reader sees half of does no harm: the changes of the cache are then read twice.

The proof carries, for a reader between its two steps, what it would read if it took the treaps now
(`ReaderSound`).
-/

namespace Hcashd.Database

open Lib Function Overlay

/-- Where a reader is. `begun` is the number of transactions that were committed when `begin` was
called. -/
inductive Reader
  | idle
  | called (begun : ℕ)
  | snapped (begun : ℕ) (dbSnapshot : Std.ExtTreeMap Key Value)
  | opened (begun : ℕ) (snapshot : DbCacheSnapshot)

/-- Where the writer is in `commitTx`. It holds the write lock of the database until it is idle
again. -/
inductive Writer
  | idle
  -- `flush` has written the treaps to leveldb and has not cleared them.
  | flushed (tx : Overlay Key Value)
  -- `flush` has returned.
  | cleared (tx : Overlay Key Value)

/-- The database with its readers and its writer, and the transactions that were committed, oldest
first. -/
structure Sessions where
  cache : DbCache
  committed : List (Overlay Key Value)
  writer : Writer
  readers : ℕ → Reader

/-- The steps of a reader: `begin` is called, takes a snapshot of leveldb, takes the treaps; the
transaction ends. -/
inductive ReaderMove
  | callBegin
  | takeSnapshot
  | takeTreaps
  | close

/-- The steps of `commitTx`. -/
inductive WriterMove
  -- No flush is needed: the treaps are replaced.
  | commitCached (tx : Overlay Key Value)
  -- A flush is needed: leveldb gets the treaps, if there is something in them.
  | flushTreaps (tx : Overlay Key Value)
  | skipFlush (tx : Overlay Key Value)
  | clearTreaps
  -- After the flush leveldb gets the transaction, or fails.
  | commitDirect
  | failDirect

/-- A step of a reader or of the writer. -/
inductive SessionMove
  | reader (i : ℕ) (move : ReaderMove)
  | writer (move : WriterMove)

namespace Sessions

/-- A reader's next state, where it can take the step. -/
def moveReader (st : Sessions) : Reader → ReaderMove → Option Reader
  | .idle, .callBegin => some (.called st.committed.length)
  | .called begun, .takeSnapshot => some (.snapped begun st.cache.ldb)
  | .snapped begun dbSnapshot, .takeTreaps => some (.opened begun ⟨dbSnapshot, st.cache.cached⟩)
  | .opened _ _, .close => some .idle
  | _, _ => none

/-- The state after a step of the writer, where it can take it. -/
def moveWriter (st : Sessions) : Writer → WriterMove → Option Sessions
  | .idle, .commitCached tx => some { st with
      cache := { st.cache with cached := st.cache.cached.merge tx }
      committed := st.committed ++ [tx] }
  | .idle, .flushTreaps tx =>
    if st.cache.cached.isEmpty then none
    else some { st with cache := st.cache.commitTreaps st.cache.cached, writer := .flushed tx }
  | .idle, .skipFlush tx =>
    if st.cache.cached.isEmpty then some { st with writer := .cleared tx } else none
  | .flushed tx, .clearTreaps => some { st with
      cache := { st.cache with cached := .empty }
      writer := .cleared tx }
  | .cleared tx, .commitDirect => some { st with
      cache := st.cache.commitTreaps tx
      committed := st.committed ++ [tx]
      writer := .idle }
  | .cleared _, .failDirect => some { st with writer := .idle }
  | _, _ => none

/-- A reader is somewhere else. -/
def setReader (st : Sessions) (i : ℕ) (reader : Reader) : Sessions :=
  { st with readers := update st.readers i reader }

/-- One step. -/
def move (st : Sessions) : SessionMove → Option Sessions
  | .reader i a => (st.moveReader (st.readers i) a).map (st.setReader i)
  | .writer a => st.moveWriter st.writer a

/-- A database that was opened: nothing is cached, and nobody reads. -/
def start (ldb : Std.ExtTreeMap Key Value) : Sessions := ⟨⟨ldb, .empty⟩, [], .idle, fun _ => .idle⟩

/-- The states after steps that meet a condition, which may depend on the state before. -/
inductive Reachable (ldb : Std.ExtTreeMap Key Value) (P : Sessions → SessionMove → Prop) :
    Sessions → Prop
  | start : Reachable ldb P (start ldb)
  | move {st st' : Sessions} {a : SessionMove} (hst : Reachable ldb P st) (hP : P st a)
    (hmove : st.move a = some st') : Reachable ldb P st'

/-- Fewer moves reach less. -/
theorem Reachable.mono {ldb : Std.ExtTreeMap Key Value} {P Q : Sessions → SessionMove → Prop}
    {st : Sessions}
    (hPQ : ∀ st a, P st a → Q st a) (h : Reachable ldb P st) : Reachable ldb Q st := by
  induction h with
  | start => exact .start
  | move _ hP hmove ih => exact ih.move (hPQ _ _ hP) hmove

/-- What is at the keys after some transactions. -/
def valueAfter (ldb : Std.ExtTreeMap Key Value) (txs : List (Overlay Key Value)) :
    Key → Option Value :=
  txs.foldl (fun value tx => tx.read value) fun key => ldb[key]?

/-- A reading is that after the first transactions, `begun` of them at least. -/
def IsPrefix (ldb : Std.ExtTreeMap Key Value) (committed : List (Overlay Key Value)) (begun : ℕ)
    (get : Key → Option Value) : Prop :=
  ∃ n, begun ≤ n ∧ n ≤ committed.length ∧ get = valueAfter ldb (committed.take n)

/-- A reader has a snapshot of leveldb and no treaps yet, and leveldb has changed since. -/
def Stale (st : Sessions) : Prop :=
  ∃ i begun dbSnapshot, st.readers i = .snapped begun dbSnapshot ∧ dbSnapshot ≠ st.cache.ldb

/-- The treaps are neither replaced nor cleared while a reader has a snapshot of an older
leveldb. -/
def TreapsKept (st : Sessions) : SessionMove → Prop
  | .writer (.commitCached _) => ¬ st.Stale
  | .writer .clearTreaps => ¬ st.Stale
  | _ => True

variable {ldb : Std.ExtTreeMap Key Value} {st st' : Sessions} {committed : List (Overlay Key Value)}
  {begun : ℕ} {get : Key → Option Value}

/-- One more commit. -/
theorem valueAfter_append (txs : List (Overlay Key Value)) (tx : Overlay Key Value) :
    valueAfter ldb (txs ++ [tx]) = tx.read (valueAfter ldb txs) := by
  rw [valueAfter, List.foldl_append]
  rfl

/-- A later commit does not disturb a reader. -/
theorem IsPrefix.append (h : IsPrefix ldb committed begun get) (tx : Overlay Key Value) :
    IsPrefix ldb (committed ++ [tx]) begun get := by
  obtain ⟨n, hbegun, hn, hget⟩ := h
  refine ⟨n, hbegun, ?_, ?_⟩
  · rw [List.length_append]
    exact hn.trans (Nat.le_add_right _ _)
  · rw [List.take_append_of_le_length hn, hget]

/-- What a reader has so far. Between its steps: the treaps of the moment over its snapshot of
leveldb. -/
def ReaderSound (ldb : Std.ExtTreeMap Key Value) (st : Sessions) : Reader → Prop
  | .idle => True
  | .called begun => begun ≤ st.committed.length
  | .snapped begun dbSnapshot => begun ≤ st.committed.length ∧
    IsPrefix ldb st.committed begun (st.cache.cached.read fun key => dbSnapshot[key]?)
  | .opened begun snapshot => IsPrefix ldb st.committed begun snapshot.get

/-- What the writer has done: after the flush leveldb has everything, later the treaps are empty. -/
def WriterSound (ldb : Std.ExtTreeMap Key Value) (st : Sessions) : Writer → Prop
  | .idle => True
  | .flushed _ => (fun key => st.cache.ldb[key]?) = valueAfter ldb st.committed
  | .cleared _ => st.cache.cached = .empty

/-- The invariant of the steps. -/
structure Sound (ldb : Std.ExtTreeMap Key Value) (st : Sessions) : Prop where
  /-- A snapshot that is taken at once has all transactions. -/
  current : st.cache.cached.read (fun key => st.cache.ldb[key]?) = valueAfter ldb st.committed
  writer : st.WriterSound ldb st.writer
  readers : ∀ i, st.ReaderSound ldb (st.readers i)

/-- Moves of a reader. -/
theorem Sound.moveReader (h : Sound ldb st) {reader reader' : Reader} {a : ReaderMove}
    (hreader : st.ReaderSound ldb reader) (hmove : st.moveReader reader a = some reader') :
    st.ReaderSound ldb reader' := by
  unfold Sessions.moveReader at hmove
  split at hmove
  -- `begin` is called.
  · obtain rfl := Option.some.inj hmove
    exact le_rfl
  -- With a new snapshot of leveldb the reader would read everything.
  · obtain rfl := Option.some.inj hmove
    refine ⟨hreader, ?_⟩
    rw [h.current]
    exact ⟨_, hreader, le_rfl, by rw [List.take_length]⟩
  -- It takes the treaps that it would have read.
  · obtain rfl := Option.some.inj hmove
    exact hreader.2
  · obtain rfl := Option.some.inj hmove
    trivial
  · exact nomatch hmove

theorem ReaderSound.of_cached_eq {reader : Reader} (h : st.ReaderSound ldb reader)
    (hcached : st'.cache.cached = st.cache.cached)
    (hcommitted : st'.committed = st.committed ∨ ∃ tx, st'.committed = st.committed ++ [tx]) :
    st'.ReaderSound ldb reader := by
  have hlength : st.committed.length ≤ st'.committed.length := by
    rcases hcommitted with heq | ⟨tx, heq⟩
    · rw [heq]
    · rw [heq, List.length_append]
      exact Nat.le_add_right _ _
  have hprefix : ∀ {begun get}, IsPrefix ldb st.committed begun get →
      IsPrefix ldb st'.committed begun get := by
    intro begun get hget
    rcases hcommitted with heq | ⟨tx, heq⟩
    · rw [heq]
      exact hget
    · rw [heq]
      exact hget.append tx
  cases reader with
  | idle => trivial
  | called begun => exact le_trans h hlength
  | snapped begun dbSnapshot =>
    refine ⟨h.1.trans hlength, ?_⟩
    rw [hcached]
    exact hprefix h.2
  | opened begun snapshot => exact hprefix h

/-- After a step of the writer that changes the treaps, where no reader has an older snapshot of
leveldb: a reader between its steps would read everything. -/
theorem ReaderSound.of_not_stale {i : ℕ} (h : st.ReaderSound ldb (st.readers i))
    (hstale : ¬ st.Stale) (hcurrent : st'.cache.cached.read (fun key => st.cache.ldb[key]?) =
      valueAfter ldb st'.committed)
    (hcommitted : st'.committed = st.committed ∨ ∃ tx, st'.committed = st.committed ++ [tx]) :
    st'.ReaderSound ldb (st.readers i) := by
  have hsame :
      ({ st' with cache := { st'.cache with cached := st.cache.cached } } : Sessions).ReaderSound
        ldb
      (st.readers i) := h.of_cached_eq rfl hcommitted
  cases hi : st.readers i with
  | snapped begun dbSnapshot =>
    rw [hi] at hsame
    have hdb : dbSnapshot = st.cache.ldb := by
      by_contra hne
      exact hstale ⟨i, begun, dbSnapshot, hi, hne⟩
    refine ⟨hsame.1, ?_⟩
    rw [hdb, hcurrent]
    exact ⟨_, hsame.1, le_rfl, by rw [List.take_length]⟩
  | _ =>
    rw [hi] at hsame
    exact hsame

/-- Moves of a writer. -/
theorem Sound.moveWriter (h : Sound ldb st) {w : Writer} (hw : st.writer = w) {a : WriterMove}
    (hkept : st.TreapsKept (.writer a)) (hmove : st.moveWriter w a = some st') : Sound ldb st' := by
  have hwriter := h.writer
  rw [hw] at hwriter
  unfold Sessions.moveWriter at hmove
  split at hmove
  -- A commit to the cache.
  · rename_i tx
    obtain rfl := Option.some.inj hmove
    have hcurrent : (st.cache.cached.merge tx).read (fun key => st.cache.ldb[key]?) =
        valueAfter ldb (st.committed ++ [tx]) := by
      rw [read_merge, h.current, valueAfter_append]
    refine ⟨hcurrent, ?_, fun i => (h.readers i).of_not_stale hkept hcurrent (.inr ⟨tx, rfl⟩)⟩
    rw [hw]
    trivial
  -- The treaps go to leveldb and are still there: they are read twice.
  · split_ifs at hmove
    obtain rfl := Option.some.inj hmove
    have hldb : (fun key => (st.cache.cached.write st.cache.ldb)[key]?) =
        valueAfter ldb st.committed := by
      rw [← h.current]
      funext key
      exact getElem?_write _ _ _
    refine ⟨?_, hldb, fun i => (h.readers i).of_cached_eq rfl (.inl rfl)⟩
    calc st.cache.cached.read (fun key => (st.cache.cached.write st.cache.ldb)[key]?)
        = st.cache.cached.read (valueAfter ldb st.committed) := by rw [hldb]
      _ = st.cache.cached.read (st.cache.cached.read fun key =>
        st.cache.ldb[key]?) := by rw [h.current]
      _ = st.cache.cached.read (fun key => st.cache.ldb[key]?) := read_read _ _
      _ = valueAfter ldb st.committed := h.current
  -- There is nothing to flush.
  · split_ifs at hmove with hempty
    obtain rfl := Option.some.inj hmove
    exact ⟨h.current, st.cache.cached.eq_empty_of_isEmpty hempty, fun i =>
      (h.readers i).of_cached_eq rfl (.inl rfl)⟩
  -- The treaps are cleared; leveldb has everything.
  · obtain rfl := Option.some.inj hmove
    have hcurrent : empty.read (fun key => st.cache.ldb[key]?) = valueAfter ldb st.committed := by
      rw [read_empty]
      exact hwriter
    exact ⟨hcurrent, rfl, fun i => (h.readers i).of_not_stale hkept hcurrent (.inl rfl)⟩
  -- The transaction goes to leveldb, and no treaps are over it.
  · rename_i tx
    obtain rfl := Option.some.inj hmove
    have hempty : st.cache.cached = .empty := hwriter
    refine ⟨?_, trivial, fun i => (h.readers i).of_cached_eq rfl (.inr ⟨tx, rfl⟩)⟩
    calc st.cache.cached.read (fun key => (tx.write st.cache.ldb)[key]?)
        = fun key => (tx.write st.cache.ldb)[key]? := by rw [hempty, read_empty]
      _ = tx.read fun key => st.cache.ldb[key]? := by
        funext key
        exact getElem?_write _ _ _
      _ = tx.read (valueAfter ldb st.committed) := by rw [← h.current, hempty, read_empty]
      _ = valueAfter ldb (st.committed ++ [tx]) := (valueAfter_append _ _).symm
  -- leveldb fails, and nothing was changed.
  · obtain rfl := Option.some.inj hmove
    exact ⟨h.current, trivial, fun i => (h.readers i).of_cached_eq rfl (.inl rfl)⟩
  · exact nomatch hmove

/-- Every move keeps the sessions sound. -/
theorem Sound.move (h : Sound ldb st) {a : SessionMove} (hkept : st.TreapsKept a)
    (hmove : st.move a = some st') : Sound ldb st' := by
  cases a with
  | writer a => exact h.moveWriter rfl hkept hmove
  | reader i a =>
    obtain ⟨reader, hreader, rfl⟩ := Option.map_eq_some_iff.1 hmove
    have hsound := h.moveReader (h.readers i) hreader
    refine ⟨h.current, h.writer, fun j => ?_⟩
    change st.ReaderSound ldb (update st.readers i reader j)
    by_cases hj : j = i
    · rw [hj, update_self]
      exact hsound
    · rw [update_of_ne hj]
      exact h.readers j

/-- So every session that is reached is sound. -/
theorem sound_of_reachable (h : Reachable ldb TreapsKept st) : Sound ldb st := by
  induction h with
  | start => exact ⟨read_empty _, trivial, fun _ => trivial⟩
  | move _ hkept hmove ih => exact ih.move hkept hmove

/-- A read-only transaction sees the state after some first transactions, and at least those that
were committed when `begin` was called. -/
theorem isPrefix_of_reachable (h : Reachable ldb TreapsKept st) {i : ℕ} {snapshot : DbCacheSnapshot}
    (hi : st.readers i = .opened begun snapshot) :
    IsPrefix ldb st.committed begun snapshot.get := by
  have hreader := (sound_of_reachable h).readers i
  rw [hi] at hreader
  exact hreader

/-- A transaction that puts one key. -/
def putOne : Overlay Key Value := empty.put [1] [2]

/-- The transaction is committed to the cache. -/
def putCached : Sessions := ⟨⟨∅, empty.merge putOne⟩, [putOne], .idle, fun _ => .idle⟩

/-- Then a reader has taken its snapshot of leveldb, which is empty, and the treaps were flushed. -/
def putFlushed : Sessions :=
  { putCached with
    cache := putCached.cache.commitTreaps putCached.cache.cached
    writer := .flushed .empty
    readers := update (update putCached.readers 0 (.called 1)) 0 (.snapped 1 ∅) }

theorem reachable_putFlushed : Reachable ∅ TreapsKept putFlushed := by
  have hidle : ¬ (start ∅).Stale := by
    rintro ⟨i, begun, dbSnapshot, hi, -⟩
    exact nomatch hi
  have hcached : Reachable ∅ TreapsKept putCached :=
    Reachable.start.move (show TreapsKept _ (.writer (.commitCached putOne)) from hidle) rfl
  have hcalled := hcached.move (show TreapsKept _ (.reader 0 .callBegin) from trivial) rfl
  have hsnapped := hcalled.move (show TreapsKept _ (.reader 0 .takeSnapshot) from trivial) rfl
  refine hsnapped.move (show TreapsKept _ (.writer (.flushTreaps .empty)) from trivial) ?_
  have hne : putCached.cache.cached.isEmpty = false := by decide +kernel
  change (if putCached.cache.cached.isEmpty then none else _) = _
  rw [hne]
  rfl

/-- The reader takes the treaps before they are cleared. -/
theorem isPrefix_of_reachable_putFlushed : ∃ st snapshot, Reachable ∅ TreapsKept st ∧
    st.readers 0 = .opened 1 snapshot ∧ IsPrefix ∅ st.committed 1 snapshot.get := by
  have hopened :=
    reachable_putFlushed.move (show TreapsKept _ (.reader 0 .takeTreaps) from trivial) rfl
  exact ⟨_, _, hopened, rfl, isPrefix_of_reachable (i := 0) hopened rfl⟩

/-- The reader takes the treaps after they were cleared. It does not find the key, which was
committed before it began. -/
theorem exists_reader_without_committed : ∃ st snapshot, Reachable ∅ (fun _ _ => True) st ∧
    st.readers 0 = .opened 1 snapshot ∧ st.committed = [putOne] ∧ snapshot.get [1] = none ∧
      ¬ IsPrefix ∅ st.committed 1 snapshot.get := by
  have hflushed : Reachable ∅ (fun _ _ => True) putFlushed :=
    reachable_putFlushed.mono fun _ _ _ => trivial
  have hcleared := hflushed.move (a := .writer .clearTreaps) trivial rfl
  have hopened := hcleared.move (a := .reader 0 .takeTreaps) trivial rfl
  refine ⟨_, _, hopened, rfl, rfl, by decide +kernel, ?_⟩
  rintro ⟨n, hbegun, hn, hget⟩
  obtain rfl : n = 1 := le_antisymm hn hbegun
  have hread := congrFun hget [1]
  have hne : ¬ (DbCacheSnapshot.get ⟨∅, .empty⟩ [1] =
      valueAfter ∅ [putOne] [1]) := by decide +kernel
  exact hne hread

end Sessions

end Hcashd.Database
