import Hcashd.Blockchain.Unspent

/-!
# Entries up to their mark

Whether an entry is marked as modified decides what `dbPutUtxoView` writes, and nothing else. What a
view says is looked at here without the mark: its slots, and the entries of a view over a database
(`entryAt`). A database holds entries as they are stored (`StoredSet`), and writing a view to one
stores at each hash what the view over the database says there (`getElem?_dbPutUtxoView`).
-/

namespace Hcashd.Blockchain

open Lib Std.ExtTreeMap UtxoEntry

/-- An entry without its mark. -/
def UtxoEntry.unmarked (entry : UtxoEntry) : UtxoEntry := { entry with modified := false }

/-- What a view has at a hash, up to the mark: nothing, a nil entry or an entry. -/
def UtxoViewpoint.slot (view : UtxoViewpoint) (hash : Hash) : Option (Option UtxoEntry) :=
  view.entries[hash]?.map (Option.map unmarked)

/-- The entry of a transaction by a view over a database, up to the mark. -/
def entryAt (db : UtxoSet) (view : UtxoViewpoint) (hash : Hash) : Option UtxoEntry :=
  (entryOf db view hash).map unmarked

/-! ## Slots -/

section Slots

variable {db : UtxoSet} {view : UtxoViewpoint} {hash : Hash}

/-- What a view holds after an entry was set. -/
theorem slot_setEntry (view : UtxoViewpoint) (hash h : Hash) (entry : UtxoEntry) :
    (view.setEntry hash entry).slot h = if hash = h then some (some entry.unmarked)
      else view.slot h := by
  unfold UtxoViewpoint.slot UtxoViewpoint.setEntry
  rw [getElem?_insert]
  by_cases hh : hash = h <;> simp [hh]

theorem slot_eq_some {x : UtxoEntry} : view.slot hash = some (some x) ↔
    ∃ entry, view.lookupEntry hash = some entry ∧ entry.unmarked = x := by
  unfold UtxoViewpoint.slot UtxoViewpoint.lookupEntry
  cases hentry : view.entries[hash]? with
  | none => simp
  | some y => cases y <;> simp

theorem entryOf_eq_of_slot_eq {view' : UtxoViewpoint} (h : view.slot hash = view'.slot hash) :
    (entryOf db view hash).map unmarked = (entryOf db view' hash).map unmarked := by
  have hslot : ∀ v : UtxoViewpoint, (entryOf db v hash).map unmarked =
      (v.slot hash).getD (db[hash]?.map unmarked) := by
    intro v
    unfold entryOf UtxoViewpoint.slot
    cases v.entries[hash]? <;> rfl
  rw [hslot, hslot, h]

theorem unspentAt_eq_of_entryOf_eq {view' : UtxoViewpoint} {o : Place}
    (h : (entryOf db view o.1).map unmarked = (entryOf db view' o.1).map unmarked) :
    unspentAt db view o = unspentAt db view' o := by
  have hunspent : ∀ v : UtxoViewpoint, unspentAt db v o =
      ((entryOf db v o.1).map unmarked).bind fun entry => entry.unspent o.2 := by
    intro v
    unfold unspentAt
    cases entryOf db v o.1 <;> rfl
  rw [hunspent, hunspent, h]

/-- Restoring an output that was unspent before it was spent gives the entry back. -/
theorem unmarked_restoreOutput {entry spent : UtxoEntry} {txIn : TxIn} {stxo : SpentTxOut}
    {output : UtxoOutput} (hunspent : entry.unspent txIn.previousOutPoint.index = some output)
    (hspent : spent.unmarked = (entry.spendOutput txIn.previousOutPoint.index).unmarked) :
    (restoreOutput spent txIn stxo).unmarked = entry.unmarked := by
  obtain ⟨houtput, hnot⟩ := Option.filter_eq_some_iff.1 hunspent
  have hnot : output.spent = false := by simpa using hnot
  have hrestored : ∀ e : UtxoEntry, (restoreOutput e txIn stxo).unmarked =
      (restoreOutput e.unmarked txIn stxo).unmarked := fun _ => rfl
  rw [hrestored, hspent, ← hrestored, spendOutput, houtput]
  simp only [hnot, Bool.false_eq_true, if_false, restoreOutput, getElem?_insert_self]
  unfold unmarked
  congr 1
  ext1 i
  rw [getElem?_insert, getElem?_insert]
  by_cases hi : txIn.previousOutPoint.index = i
  · rw [if_pos (by simpa using hi), ← hi, houtput, ← hnot]
  · rw [if_neg (by simpa using hi), if_neg (by simpa using hi)]

end Slots

/-! ## Loading entries -/

section Load

variable {db : UtxoSet}

/-- A fetch adds the stored entries that the view lacks. -/
theorem getElem?_fetchUtxosMain (db : UtxoSet) (view : UtxoViewpoint) (txSet : List Hash)
    (hash : Hash) :
    (fetchUtxosMain db view txSet).entries[hash]? =
      if hash ∉ view.entries ∧ hash ∈ txSet then some db[hash]? else view.entries[hash]? := by
  unfold fetchUtxosMain
  induction txSet generalizing view with
  | nil => simp
  | cons h txSet ih =>
    rw [List.foldl_cons, ih]
    by_cases hmem : h ∈ view.entries
    · by_cases hh : hash = h
      · subst hh
        simp [hmem]
      · simp [hmem, hh]
    · by_cases hh : hash = h
      · subst hh
        simp [hmem]
      · have hne : ¬ h = hash := fun he => hh he.symm
        simp [hmem, hh, hne, getElem?_insert]

end Load

/-! ## What is stored -/

/-- What `dbPutUtxoView` stores for an entry: nothing if it is fully spent. -/
def UtxoEntry.settle (entry : UtxoEntry) : Option UtxoEntry :=
  if entry.isFullySpent then none else some entry.stored

/-- A set of entries as `dbPutUtxoView` stores them. -/
def StoredSet (db : UtxoSet) : Prop :=
  ∀ (hash : Hash) (entry : UtxoEntry), db[hash]? = some entry → entry.settle = some entry

section Stored

variable {db : UtxoSet} {view : UtxoViewpoint}

/-- Fully spent is without unspent outputs. -/
theorem UtxoEntry.isFullySpent_iff {entry : UtxoEntry} :
    entry.isFullySpent = true ↔ ∀ i, entry.unspent i = none := by
  refine ⟨fun h => unspent_of_isFullySpent h, fun h => ?_⟩
  unfold isFullySpent
  rw [List.all_eq_true]
  rintro ⟨i, output⟩ hmem
  have hi := mem_toList_iff_getElem?_eq_some.1 hmem
  have hnone := h i
  rw [unspent, hi] at hnone
  simpa [Option.filter] using hnone

theorem UtxoEntry.settle_of_settle {entry entry' : UtxoEntry} (h : entry.settle = some entry') :
    entry'.settle = some entry' := by
  unfold settle at h
  split_ifs at h with hfull
  cases h
  have hfull' : ¬ entry.stored.isFullySpent = true := by
    rw [isFullySpent_iff] at hfull ⊢
    simpa [unspent_stored] using hfull
  rw [settle, if_neg hfull']
  congr 1
  unfold stored
  congr 1
  ext1 i
  simp only [getElem?_filter]
  cases entry.sparseOutputs[i]? with
  | none => rfl
  | some output => cases hs : output.spent <;> simp [Option.filter, hs]

/-- Writing a view stores at each hash what the view over the database says there. -/
theorem getElem?_dbPutUtxoView (h : Loaded db view) (hdb : StoredSet db) (hash : Hash) :
    (dbPutUtxoView db view)[hash]? = (entryAt db view hash).bind settle := by
  have hentryAt : (entryAt db view hash).bind settle = (entryOf db view hash).bind settle := by
    unfold entryAt
    cases entryOf db view hash <;> rfl
  have hdb' : db[hash]?.bind settle = db[hash]? := by
    cases hentry : db[hash]? with
    | none => rfl
    | some entry => exact hdb hash entry hentry
  rw [hentryAt]
  obtain ⟨entry, hentry, hput⟩ | ⟨hentry, hput⟩ := h.dbPutUtxoView_cases hash
  · rw [hentry, hput]
    rfl
  · rw [hentry, hput, hdb']

/-- Writing a loaded view keeps the stored set clean. -/
theorem StoredSet.dbPutUtxoView (hdb : StoredSet db) (h : Loaded db view) :
    StoredSet (dbPutUtxoView db view) := by
  intro hash entry hentry
  rw [getElem?_dbPutUtxoView h hdb] at hentry
  obtain ⟨_, -, hsettle⟩ := Option.bind_eq_some_iff.1 hentry
  exact settle_of_settle hsettle

end Stored

end Hcashd.Blockchain
