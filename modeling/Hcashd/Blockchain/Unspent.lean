import Hcashd.Blockchain.Utxo

/-!
# What a view says is unspent

A view and the database together say which outputs are unspent: the view where it was asked, the
database elsewhere (`unspentAt`). The operations on views are described by what they do to that:
loading entries does nothing, spending an input removes one output, adding a transaction adds its
spendable outputs, and writing the view into the database changes nothing.
-/

namespace Hcashd.Blockchain

open Lib List Std.ExtTreeMap

/-- An outpoint without the tree that its spender names. -/
abbrev Place := Hash × ℕ

/-- The place that an input refers to. -/
def placeOf (txIn : TxIn) : Place := (txIn.previousOutPoint.hash, txIn.previousOutPoint.index)

/-- An output of an entry that is there and not spent. -/
def UtxoEntry.unspent (entry : UtxoEntry) (i : ℕ) : Option UtxoOutput :=
  entry.sparseOutputs[i]?.filter fun output => !output.spent

/-- The entry of a transaction by a view over a database. -/
def entryOf (db : UtxoSet) (view : UtxoViewpoint) (hash : Hash) : Option UtxoEntry :=
  view.entries[hash]?.getD db[hash]?

/-- The unspent output at a place by a view over a database. -/
def unspentAt (db : UtxoSet) (view : UtxoViewpoint) (o : Place) : Option UtxoOutput :=
  (entryOf db view o.1).bind fun entry => entry.unspent o.2

/-- The amount that a view knows of an output, spent or not. -/
def amountAt (view : UtxoViewpoint) (o : Place) : Option ℤ :=
  (view.lookupEntry o.1).bind fun entry => entry.sparseOutputs[o.2]?.map UtxoOutput.amount

namespace UtxoEntry

variable {entry : UtxoEntry}

/-- An output that is not spent is there, and the accessors read it. -/
theorem isOutputSpent_eq_false {i : ℕ} :
    entry.isOutputSpent i = false ↔ ∃ output, entry.unspent i = some output := by
  unfold isOutputSpent unspent
  cases h : entry.sparseOutputs[i]? with
  | none => simp
  | some output => cases hs : output.spent <;> simp [Option.filter, hs]

theorem amountByIndex_of_unspent {i : ℕ} {output : UtxoOutput}
    (h : entry.unspent i = some output) : entry.amountByIndex i = output.amount := by
  obtain ⟨h, -⟩ := Option.filter_eq_some_iff.1 h
  simp [amountByIndex, h]

theorem getElem?_spendOutput (entry : UtxoEntry) (i j : ℕ) :
    (entry.spendOutput i).sparseOutputs[j]? =
    if i = j then entry.sparseOutputs[j]?.map fun output => { output with spent := true }
    else entry.sparseOutputs[j]? := by
  obtain rfl | hij := eq_or_ne i j
  · rcases h : entry.sparseOutputs[i]? with _ | ⟨_, _, _, _ | _⟩ <;> simp [spendOutput, h]
  · rcases h : entry.sparseOutputs[i]? with _ | ⟨_, _, _, _ | _⟩ <;>
      simp [spendOutput, h, hij, Std.ExtTreeMap.getElem?_insert]

/-- Spending one output leaves the others. -/
theorem unspent_spendOutput (entry : UtxoEntry) (i j : ℕ) :
    (entry.spendOutput i).unspent j = if i = j then none else entry.unspent j := by
  rw [unspent, getElem?_spendOutput]
  split_ifs
  · cases entry.sparseOutputs[j]? <;> rfl
  · rfl

theorem amount_spendOutput (entry : UtxoEntry) (i j : ℕ) :
    (entry.spendOutput i).sparseOutputs[j]?.map UtxoOutput.amount =
      entry.sparseOutputs[j]?.map UtxoOutput.amount := by
  rw [getElem?_spendOutput]
  split_ifs
  · rw [Option.map_map]
    rfl
  · rfl

theorem unspent_of_isFullySpent (h : entry.isFullySpent) (i : ℕ) : entry.unspent i = none := by
  unfold isFullySpent at h
  rw [all_eq_true] at h
  unfold unspent
  cases hi : entry.sparseOutputs[i]? with
  | none => rfl
  | some output =>
    have hmem := mem_toList_iff_getElem?_eq_some.2 hi
    have hs := h _ hmem
    simp_all [Option.filter]

theorem unspent_stored (entry : UtxoEntry) (i : ℕ) : entry.stored.unspent i = entry.unspent i := by
  unfold unspent stored
  simp only [Std.ExtTreeMap.getElem?_filter]
  cases hi : entry.sparseOutputs[i]? with
  | none => rfl
  | some output => cases hs : output.spent <;> simp [Option.filter, hs]

end UtxoEntry

section Views

variable {db : UtxoSet} {view : UtxoViewpoint} {c c' : Connecting}

theorem entryOf_of_lookupEntry {hash : Hash} {entry : UtxoEntry}
    (h : view.lookupEntry hash = some entry) : entryOf db view hash = some entry := by
  unfold UtxoViewpoint.lookupEntry at h
  rw [Option.join_eq_some_iff] at h
  rw [entryOf, h, Option.getD_some]

/-- The entry that was set, and the others. -/
theorem entryOf_setEntry (db : UtxoSet) (view : UtxoViewpoint) (hash h : Hash) (entry : UtxoEntry) :
    entryOf db (view.setEntry hash entry) h = if hash = h then some entry
      else entryOf db view h := by
  unfold entryOf UtxoViewpoint.setEntry
  rw [Std.ExtTreeMap.getElem?_insert]
  by_cases hh : hash = h <;> simp [hh]

/-- The entry that was set, and the others. -/
theorem lookupEntry_setEntry (view : UtxoViewpoint) (hash h : Hash) (entry : UtxoEntry) :
    (view.setEntry hash entry).lookupEntry h = if hash = h then some entry
      else view.lookupEntry h := by
  unfold UtxoViewpoint.lookupEntry UtxoViewpoint.setEntry
  rw [Std.ExtTreeMap.getElem?_insert]
  by_cases hh : hash = h <;> simp [hh]

/-- What is unspent after an entry was set. -/
theorem unspentAt_setEntry (db : UtxoSet) (view : UtxoViewpoint) (hash : Hash) (entry : UtxoEntry)
    (o : Place) : unspentAt db (view.setEntry hash entry) o =
      if hash = o.1 then entry.unspent o.2 else unspentAt db view o := by
  unfold unspentAt
  rw [entryOf_setEntry]
  by_cases hh : hash = o.1 <;> simp [hh]

theorem amountAt_setEntry (view : UtxoViewpoint) (hash : Hash) (entry : UtxoEntry) (o : Place) :
    amountAt (view.setEntry hash entry) o =
      if hash = o.1 then entry.sparseOutputs[o.2]?.map UtxoOutput.amount else amountAt view o := by
  unfold amountAt
  rw [lookupEntry_setEntry]
  by_cases hh : hash = o.1 <;> simp [hh]

/-- What `spendInput` does when it succeeds: the output at the input's place is gone, all amounts
stay and the journal has one more entry. -/
theorem spendInput_spec {txIn : TxIn} (h : spendInput c txIn = .ok c') :
    (∃ entry, c.view.lookupEntry txIn.previousOutPoint.hash = some entry) ∧
    (∀ db o, unspentAt db c'.view o =
        if placeOf txIn = o then none else unspentAt db c.view o) ∧
      (∀ o, amountAt c'.view o = amountAt c.view o) ∧
      c'.stxos.length = c.stxos.length + 1 := by
  unfold spendInput at h
  split at h
  · cases h
  · rename_i entry hentry
    cases h
    refine ⟨⟨entry, hentry⟩, fun db o => ?_, fun o => ?_, rfl⟩
    · rw [unspentAt_setEntry, UtxoEntry.unspent_spendOutput]
      by_cases ho : txIn.previousOutPoint.hash = o.1
      · have hunspent : unspentAt db c.view o = entry.unspent o.2 := by
          rw [unspentAt, entryOf_of_lookupEntry (ho ▸ hentry), Option.bind_some]
        simp [placeOf, ho, hunspent, Prod.ext_iff]
      · simp [placeOf, ho, Prod.ext_iff]
    · rw [amountAt_setEntry, UtxoEntry.amount_spendOutput]
      by_cases ho : txIn.previousOutPoint.hash = o.1
      · rw [if_pos ho, amountAt, ← ho, hentry, Option.bind_some]
      · rw [if_neg ho]

/-- What the loop of `connectTransaction` over inputs does: their places are empty and all amounts
stay. -/
theorem foldlM_spendInput_spec {inputs : List TxIn} (h : inputs.foldlM spendInput c = .ok c') :
    (∀ db o, unspentAt db c'.view o = if o ∈ inputs.map placeOf then none
      else unspentAt db c.view o) ∧
      (∀ o, amountAt c'.view o = amountAt c.view o) ∧
      c'.stxos.length = c.stxos.length + inputs.length := by
  induction inputs generalizing c with
  | nil =>
    obtain rfl := foldlM_nil_eq_ok.1 h
    simp
  | cons txIn inputs ih =>
    obtain ⟨c1, h1, h⟩ := foldlM_cons_eq_ok.1 h
    obtain ⟨-, hunspent1, hamount1, hlen1⟩ := spendInput_spec h1
    obtain ⟨hunspent, hamount, hlen⟩ := ih h
    refine ⟨fun db o => ?_, fun o => (hamount o).trans (hamount1 o), ?_⟩
    · rw [hunspent, hunspent1]
      by_cases ho : placeOf txIn = o
      · simp [ho]
      · simp [ho, Ne.symm ho]
    · rw [length_cons, hlen, hlen1]
      omega

end Views

variable (env : Env)

/-- The spendable output of a transaction at an index. -/
def outputAt (tx : MsgTx) (i : ℕ) : Option UtxoOutput :=
  tx.txOut[i]?.bind fun out =>
    if env.script.isUnspendable out.value out.pkScript then none
    else some ⟨out.pkScript, out.value, out.version, false⟩

/-- The output that a transaction creates at a place. -/
def createdAt (tx : MsgTx) (o : Place) : Option UtxoOutput :=
  if env.txHash tx = o.1 then outputAt env tx o.2 else none

variable {tx : MsgTx} {c c' : Connecting} {height index : ℕ} {output : UtxoOutput}

/-- The outputs that can be spent. -/
theorem mem_spendableOuts {i : ℕ} {a : Option UtxoOutput} :
    (i, a) ∈ spendableOuts env tx ↔ ∃ output, outputAt env tx i = some output ∧
    a = some output := by
  unfold spendableOuts outputAt
  simp only [mem_filterMap, Prod.exists, mem_zipIdx_iff_getElem?, Option.bind_eq_some_iff]
  constructor
  · rintro ⟨out, j, hj, h⟩
    split_ifs at h with hu
    cases h
    exact ⟨_, ⟨out, hj, by rw [if_neg hu]⟩, rfl⟩
  · rintro ⟨output, ⟨out, hi, h⟩, rfl⟩
    refine ⟨out, i, hi, ?_⟩
    split_ifs at h ⊢ with hu
    cases h
    rfl

theorem nodup_spendableOuts (tx : MsgTx) : ((spendableOuts env tx).map Prod.fst).Nodup := by
  have hidx : (tx.txOut.zipIdx.map Prod.snd).Nodup := by
    rw [zipIdx_map_snd]
    exact nodup_range'
  rw [Nodup, pairwise_map] at hidx ⊢
  rw [spendableOuts, pairwise_filterMap]
  refine hidx.imp fun {p q} hne b hb b' hb' => ?_
  obtain ⟨out, i⟩ := p
  obtain ⟨out', i'⟩ := q
  simp only [Option.ite_none_left_eq_some, Option.some.injEq] at hb hb'
  rw [← hb.2, ← hb'.2]
  exact hne

/-- The outputs of an entry after `AddTxOuts` has written those of a transaction. -/
theorem getElem?_applyUpdates_spendableOuts (m : Std.ExtTreeMap ℕ UtxoOutput) (tx : MsgTx) (i : ℕ) :
    (applyUpdates m (spendableOuts env tx))[i]? = (outputAt env tx i).or m[i]? := by
  cases h : outputAt env tx i with
  | none =>
    rw [getElem?_applyUpdates_of_not_mem, Option.none_or]
    rw [mem_map]
    rintro ⟨⟨j, a⟩, hmem, rfl⟩
    obtain ⟨output, houtput, -⟩ := (mem_spendableOuts env).1 hmem
    simp [h] at houtput
  | some output =>
    rw [getElem?_applyUpdates_of_mem (nodup_spendableOuts env tx)
      ((mem_spendableOuts env).2 ⟨output, h, rfl⟩), Option.some_or]

theorem spent_of_outputAt {i : ℕ} (h : outputAt env tx i = some output) : output.spent = false := by
  unfold outputAt at h
  obtain ⟨out, -, h⟩ := Option.bind_eq_some_iff.1 h
  split_ifs at h
  cases h
  rfl

/-- What `AddTxOuts` does: the outputs of the transaction are unspent. The other outputs at its hash
stay as they are if the view has an entry there, and are forgotten otherwise. -/
theorem unspentAt_addTxOuts (db : UtxoSet) (view : UtxoViewpoint) (tx : MsgTx) (height index : ℕ)
    (o : Place) : unspentAt db (addTxOuts env view tx height index) o =
      (createdAt env tx o).or (if env.txHash tx = o.1 ∧ view.lookupEntry o.1 = none then none
        else unspentAt db view o) := by
  unfold addTxOuts createdAt
  rw [unspentAt_setEntry]
  by_cases ho : env.txHash tx = o.1
  · rw [if_pos ho, if_pos ho, UtxoEntry.unspent, getElem?_applyUpdates_spendableOuts]
    cases hout : outputAt env tx o.2 with
    | some output => simp [Option.filter, spent_of_outputAt env hout]
    | none =>
      rw [Option.none_or, Option.none_or, ho]
      cases hentry : view.lookupEntry o.1 with
      | none => simp [newTxEntry]
      | some entry =>
        rw [if_neg (by simp), unspentAt, entryOf_of_lookupEntry hentry, Option.bind_some]
        rfl
  · simp [ho]

/-- The places that connecting a transaction empties. -/
def spentPlaces (tx : MsgTx) : List Place :=
  if isCoinBaseTx tx then [] else (spendingInputs env tx).map placeOf

/-- The inputs whose places connecting a transaction empties. -/
def spentInputs (tx : MsgTx) : List TxIn := if isCoinBaseTx tx then [] else spendingInputs env tx

theorem map_placeOf_spentInputs (tx : MsgTx) :
    (spentInputs env tx).map placeOf = spentPlaces env tx := by
  unfold spentInputs spentPlaces
  split_ifs <;> rfl

/-- The loop of `connectTransaction` over the inputs, coinbase or not. -/
theorem spendInputs_eq (c : Connecting) (tx : MsgTx) :
    spendInputs env c tx = (spentInputs env tx).foldlM spendInput c := by
  unfold spendInputs spentInputs
  split_ifs <;> rfl

theorem length_spentPlaces (tx : MsgTx) : (spentPlaces env tx).length =
    if isCoinBaseTx tx then 0 else (spendingInputs env tx).length := by
  unfold spentPlaces
  split_ifs <;> simp

/-- What the loop of `connectTransaction` over the inputs does, also for a coinbase. -/
theorem spendInputs_spec (h : spendInputs env c tx = .ok c') : (∀ db o, unspentAt db c'.view o =
        if o ∈ spentPlaces env tx then none else unspentAt db c.view o) ∧
      (∀ o, amountAt c'.view o = amountAt c.view o) ∧
      c'.stxos.length = c.stxos.length + (spentPlaces env tx).length := by
  rw [spendInputs_eq] at h
  simpa only [map_placeOf_spentInputs, ← length_map (f := placeOf)] using foldlM_spendInput_spec h

section

variable (h : connectTransaction env c tx height index = .ok c')

include h

/-- An output that is unspent after a transaction was connected was created by it, or was unspent
before and is not one that the transaction spends. -/
theorem unspentAt_connectTransaction {db : UtxoSet} {o : Place}
    (ho : unspentAt db c'.view o = some output) :
    createdAt env tx o = some output ∨
      (createdAt env tx o = none ∧ o ∉ spentPlaces env tx ∧
        unspentAt db c.view o = some output) := by
  obtain ⟨c1, h1, h⟩ := bind_eq_ok.1 h
  obtain rfl := pure_eq_ok.1 h
  rw [unspentAt_addTxOuts] at ho
  cases hcreated : createdAt env tx o with
  | some created =>
    rw [hcreated, Option.some_or] at ho
    exact .inl ho
  | none =>
    rw [hcreated, Option.none_or] at ho
    split_ifs at ho with hfresh
    rw [(spendInputs_spec env h1).1] at ho
    split_ifs at ho with hspent
    exact .inr ⟨rfl, hspent, ho⟩

/-- A transaction journals the places it spends. -/
theorem length_stxos_connectTransaction :
    c'.stxos.length = c.stxos.length + (spentPlaces env tx).length := by
  obtain ⟨c1, h1, h⟩ := bind_eq_ok.1 h
  obtain rfl := pure_eq_ok.1 h
  exact (spendInputs_spec env h1).2.2

end

/-- A fetch changes no entry. -/
theorem entryOf_fetchUtxosMain (db : UtxoSet) (view : UtxoViewpoint) (txSet : List Hash)
    (h : Hash) :
    entryOf db (fetchUtxosMain db view txSet) h = entryOf db view h := by
  unfold fetchUtxosMain
  induction txSet generalizing view with
  | nil => rfl
  | cons hash txSet ih =>
    rw [foldl_cons, ih]
    split_ifs with hmem
    · rfl
    · unfold entryOf
      simp only [Std.ExtTreeMap.getElem?_insert]
      by_cases hh : hash = h
      · subst hh
        simp [getElem?_eq_none hmem]
      · simp [hh]

section Rules

variable {env} {Q Q' : Place → ℤ → Prop} {db : UtxoSet}

variable {tx : MsgTx} {transactions : List MsgTx} {view : UtxoViewpoint}

theorem mem_of_txInFlight {hash : Hash} {i : ℕ}
    (h : txInFlight env transactions hash = some (tx, i)) : tx ∈ transactions := by
  have hmem := mem_of_find?_eq_some h
  rw [mem_reverse] at hmem
  exact (mem_zipIdx' hmem).2 ▸ getElem_mem _

/-- What the loop of `fetchInputUtxos` over a regular tree does to a view: it adds outputs of the
tree's own transactions, and then loads entries. -/
theorem fetchRegularInputs_induction {P : UtxoViewpoint → Prop} {view view' : UtxoViewpoint}
    {height offset : ℕ}
    (hfetch : fetchRegularInputs env db view transactions height offset = .ok view') (h : P view)
    (hadd : ∀ view, ∀ tx ∈ transactions, ∀ i, P view → P (addTxOuts env view tx height i))
    (hload : ∀ view txSet, P view → P (fetchUtxosMain db view txSet)) : P view' := by
  unfold fetchRegularInputs at hfetch
  simp only [bind_eq_ok, rejectIf_eq_ok, pure_eq_ok] at hfetch
  obtain ⟨-, -, rfl⟩ := hfetch
  apply hload
  refine foldlRecOn (motive := fun s : UtxoViewpoint × List Hash => P s.1) _ _ h fun s hs p _ => ?_
  refine foldlRecOn (motive := fun s : UtxoViewpoint × List Hash => P s.1) _ _ hs fun s hs txIn _ =>
    ?_
  unfold fetchRegularInput
  cases horigin : txInFlight env transactions txIn.previousOutPoint.hash with
  | none =>
    split_ifs <;> exact hs
  | some origin =>
    dsimp only
    split_ifs
    · exact hadd _ _ (mem_of_txInFlight horigin) _ hs
    · exact hs
    · exact hs

end Rules

/-- Every entry of a view that was not modified is the entry of the database. -/
def Loaded (db : UtxoSet) (view : UtxoViewpoint) : Prop :=
  ∀ (hash : Hash) (x : Option UtxoEntry), view.entries[hash]? = some x →
    x = db[hash]? ∨ ∃ entry : UtxoEntry, x = some entry ∧ entry.modified = true

section Loaded

variable {env} {db : UtxoSet} {view : UtxoViewpoint} {c c' : Connecting} {hash : Hash}

/-- A modified entry keeps the view loaded. -/
theorem Loaded.setEntry (h : Loaded db view) {entry : UtxoEntry}
    (hentry : entry.modified = true ∨ view.lookupEntry hash = some entry) :
    Loaded db (view.setEntry hash entry) := by
  intro hash' x hx
  unfold UtxoViewpoint.setEntry at hx
  by_cases hh : hash = hash'
  · subst hh
    rw [getElem?_insert_self, Option.some.injEq] at hx
    subst hx
    obtain hmod | hlook := hentry
    · exact .inr ⟨entry, rfl, hmod⟩
    · exact h hash _ (Option.join_eq_some_iff.1 hlook)
  · rw [Std.ExtTreeMap.getElem?_insert, if_neg (by simpa using hh)] at hx
    exact h hash' x hx

/-- New outputs keep the view loaded. -/
theorem Loaded.addTxOuts (h : Loaded db view) (tx : MsgTx) (height index : ℕ) :
    Loaded db (addTxOuts env view tx height index) :=
  h.setEntry (.inl rfl)

/-- Spending keeps the view loaded. -/
theorem Loaded.spendInput (h : Loaded db c.view) {txIn : TxIn}
    (hspend : spendInput c txIn = .ok c') : Loaded db c'.view := by
  unfold Blockchain.spendInput at hspend
  split at hspend
  · cases hspend
  · rename_i entry hentry
    cases hspend
    apply h.setEntry
    unfold UtxoEntry.spendOutput
    split
    · exact .inr hentry
    · split_ifs
      · exact .inr hentry
      · exact .inl rfl

/-- A fetch keeps the view loaded. -/
theorem Loaded.fetchUtxosMain (h : Loaded db view) (txSet : List Hash) :
    Loaded db (fetchUtxosMain db view txSet) := by
  refine foldlRecOn (motive := Loaded db) _ _ h fun view hview hash _ => ?_
  split_ifs
  · exact hview
  · intro hash' x hx
    by_cases hh : hash = hash'
    · subst hh
      rw [getElem?_insert_self, Option.some.injEq] at hx
      exact .inl hx.symm
    · rw [Std.ExtTreeMap.getElem?_insert, if_neg (by simpa using hh)] at hx
      exact hview hash' x hx

theorem utxoUpdate_eq_some {item u : Hash × Option UtxoEntry} :
    utxoUpdate item = some u ↔ ∃ entry : UtxoEntry, item.2 = some entry ∧ entry.modified = true ∧
      u = (item.1, if entry.isFullySpent then none else some entry.stored) := by
  obtain ⟨hash, _ | entry⟩ := item
  · simp [utxoUpdate]
  · simp only [utxoUpdate, Option.ite_none_right_eq_some, Option.some.injEq, exists_eq_left',
      eq_comm (b := u)]

/-- What a view writes. -/
theorem mem_utxoUpdates {x : Option UtxoEntry} :
    (hash, x) ∈ view.entries.toList.filterMap utxoUpdate ↔
      ∃ entry : UtxoEntry, view.entries[hash]? = some (some entry) ∧ entry.modified = true ∧
        x = if entry.isFullySpent then none else some entry.stored := by
  simp only [mem_filterMap, utxoUpdate_eq_some, Prod.exists,
    mem_toList_iff_getElem?_eq_some, Prod.mk.injEq]
  constructor
  · rintro ⟨_, _, hview, entry, rfl, hmod, rfl, rfl⟩
    exact ⟨entry, hview, hmod, rfl⟩
  · rintro ⟨entry, hview, hmod, rfl⟩
    exact ⟨hash, some entry, hview, entry, rfl, hmod, rfl, rfl⟩

theorem nodup_utxoUpdates (view : UtxoViewpoint) :
    ((view.entries.toList.filterMap utxoUpdate).map Prod.fst).Nodup := by
  have hkeys : view.entries.toList.Pairwise fun p q => p.1 ≠ q.1 :=
    distinct_keys_toList.imp fun h he => h (by simp [he])
  rw [Nodup, pairwise_map, pairwise_filterMap]
  refine hkeys.imp fun {p q} hne b hb b' hb' => ?_
  obtain ⟨entry, -, -, rfl⟩ := utxoUpdate_eq_some.1 hb
  obtain ⟨entry', -, -, rfl⟩ := utxoUpdate_eq_some.1 hb'
  exact hne

/-- An entry that was changed is written, and any other one is that of the database. -/
theorem Loaded.dbPutUtxoView_cases (h : Loaded db view) (hash : Hash) :
    (∃ entry : UtxoEntry, entryOf db view hash = some entry ∧
      (dbPutUtxoView db view)[hash]? = if entry.isFullySpent then none else some entry.stored) ∨
    entryOf db view hash = db[hash]? ∧ (dbPutUtxoView db view)[hash]? = db[hash]? := by
  unfold entryOf dbPutUtxoView
  by_cases hwritten :
    ∃ entry : UtxoEntry, view.entries[hash]? = some (some entry) ∧ entry.modified = true
  · obtain ⟨entry, hview, hmod⟩ := hwritten
    refine .inl ⟨entry, by rw [hview, Option.getD_some], ?_⟩
    exact getElem?_applyUpdates_of_mem (nodup_utxoUpdates view)
      (mem_utxoUpdates.2 ⟨entry, hview, hmod, rfl⟩) _
  · refine .inr ⟨?_, getElem?_applyUpdates_of_not_mem ?_ _⟩
    · cases hview : view.entries[hash]? with
      | none => rfl
      | some x =>
        obtain hx | ⟨entry, rfl, hmod⟩ := h hash x hview
        · exact hx
        · exact absurd ⟨entry, hview, hmod⟩ hwritten
    · rw [mem_map]
      rintro ⟨⟨hash, x⟩, hmem, rfl⟩
      obtain ⟨entry, hview, hmod, -⟩ := mem_utxoUpdates.1 hmem
      exact hwritten ⟨entry, hview, hmod⟩

/-- The unspent output of the database at a place. -/
def utxoAt (db : UtxoSet) (o : Place) : Option UtxoOutput :=
  db[o.1]?.bind fun entry => entry.unspent o.2

end Loaded

section TakeBack

variable {env : Env}

/-- A cleared transaction has nothing unspent. -/
theorem unspentAt_clearTx (db : UtxoSet) (view : UtxoViewpoint) (tx : MsgTx) (blank : UtxoEntry)
    (o : Place) :
    unspentAt db (clearTx env view tx blank) o = if env.txHash tx =
      o.1 then none else unspentAt db view o := by
  unfold clearTx
  rw [unspentAt_setEntry]
  simp [UtxoEntry.unspent]

/-- The inputs that `disconnectTransactionSlice` restores for a transaction, by its place: none for
a coinbase. -/
def restoredInputs (secondCoinbase : Bool) (tx : MsgTx) (txIdx : ℕ) : List TxIn :=
  if txIdx = 0 ∨ (txIdx = 1 ∧ secondCoinbase) then [] else tx.txIn

/-- The rollback of one transaction, input by input. -/
theorem disconnectSliceTx_eq (height : ℕ) (secondCoinbase : Bool) (c : Connecting) (tx : MsgTx)
    (txIdx : ℕ) : disconnectSliceTx env height secondCoinbase c tx txIdx =
      (restoredInputs secondCoinbase tx txIdx).reverse.foldlM (unspendSliceInput env tx)
        { c with view := clearTx env c.view tx (newTxEntry env tx height txIdx) } := by
  unfold disconnectSliceTx restoredInputs
  split_ifs <;> rfl

end TakeBack

end Hcashd.Blockchain
