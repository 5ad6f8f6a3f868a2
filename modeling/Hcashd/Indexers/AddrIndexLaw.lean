import Hcashd.Blockchain.ViewScripts
import Hcashd.Indexers.AddrIndex
import Hcashd.Indexers.TxIndexLaw

/-!
# Disconnecting a block from the address index

`DisconnectBlock` counts the entries to remove again, with the view from which the block has been
removed. That view has the outputs that the block had spent, but for those that the block itself had
created: the addresses of these are not found a second time. `restoresEntries_iff` says for which
blocks the index is as it was before.
-/

namespace Hcashd.Indexers

open Lib Lib.Levels Blockchain List Function

/-! ## What a block writes -/

section Collect

/-- The data after some transactions, each given by its place and the keys of its addresses. -/
def collect (items : List (ℕ × List AddrKey)) (data : WriteIndexData) : WriteIndexData :=
  items.foldl (fun data item => item.2.foldl (indexKey item.1) data) data

/-- The places of the transactions that involve an address. -/
def placesOf (items : List (ℕ × List AddrKey)) (key : AddrKey) : List ℕ :=
  (items.filter fun item => key ∈ item.2).map Prod.fst

variable {data : WriteIndexData} {i : ℕ}

theorem getElem?_foldl_indexKey (hlt : ∀ (key : AddrKey) (l : List ℕ), data[key]? = some l →
      ∀ j ∈ l, j < i)
    (keys : List AddrKey) (key : AddrKey) : (keys.foldl (indexKey i) data)[key]? =
      if key ∈ keys then some (data[key]?.getD [] ++ [i]) else data[key]? := by
  -- the addresses before the last one have been gone through, and have the transaction at their end
  induction keys using reverseRecOn generalizing key with
  | nil => rfl
  | append_singleton keys head ih =>
    have hlast :
        ((keys.foldl (indexKey i) data)[head]?.getD []).getLast? = some i ↔ head ∈ keys := by
      rw [ih head]
      split_ifs with hhead
      · simp [hhead]
      · refine iff_of_false (fun hlast => ?_) hhead
        cases hget : data[head]? with
        | none => simp [hget] at hlast
        | some l =>
          rw [hget, Option.getD_some] at hlast
          exact lt_irrefl i (hlt head l hget i (mem_of_getLast? hlast))
    rw [foldl_concat, indexKey]
    by_cases hhead : head ∈ keys
    · rw [if_pos (hlast.2 hhead), ih key]
      refine if_congr ⟨mem_append_left _, fun hkey => ?_⟩ rfl rfl
      rcases mem_append.1 hkey with hkey | hkey
      · exact hkey
      · rwa [mem_singleton.1 hkey]
    · rw [if_neg (mt hlast.1 hhead), Std.ExtTreeMap.getElem?_insert, ih head, if_neg hhead, ih key]
      by_cases hk : head = key
      · subst hk
        simp
      · simp [hk, Ne.symm hk]

/-- What is collected for one address. -/
theorem getElem?_collect {items : List (ℕ × List AddrKey)}
    (horder : items.Pairwise fun item later => item.1 < later.1) (key : AddrKey) :
    (collect items ∅)[key]? = if placesOf items key =
      [] then none else some (placesOf items key) := by
  induction items using reverseRecOn generalizing key with
  | nil => simp [collect, placesOf]
  | append_singleton items item ih =>
    obtain ⟨horder, -, hlast⟩ := pairwise_append.1 horder
    have hsplit :
        collect (items ++ [item]) ∅ = item.2.foldl (indexKey item.1) (collect items ∅) := by
      rw [collect, foldl_append]
      rfl
    have hbelow :
        ∀ (key : AddrKey) (l : List ℕ), (collect items ∅)[key]? = some l → ∀ j ∈ l, j < item.1 := by
      intro key l hl j hj
      rw [ih horder key] at hl
      split_ifs at hl
      cases hl
      obtain ⟨earlier, hmem, rfl⟩ := mem_map.1 hj
      exact hlast earlier (mem_filter.1 hmem).1 item (mem_singleton_self item)
    have hget : (collect items ∅)[key]?.getD [] = placesOf items key := by
      rw [ih horder key]
      split_ifs with hnil
      · rw [Option.getD_none, hnil]
      · rfl
    rw [hsplit, getElem?_foldl_indexKey hbelow, hget]
    by_cases hkey : key ∈ item.2
    · have hplaces : placesOf (items ++ [item]) key = placesOf items key ++ [item.1] := by
        simp [placesOf, hkey]
      rw [if_pos hkey, hplaces, if_neg (by simp)]
    · have hplaces : placesOf (items ++ [item]) key = placesOf items key := by
        simp [placesOf, hkey]
      rw [if_neg hkey, hplaces, ih horder key]

end Collect

section Items

variable (env : Env) (addrs : Addresses)

/-- The keys of the outputs of a transaction. -/
def outputKeys (isSStx : Bool) (tx : MsgTx) : List AddrKey :=
  tx.txOut.flatMap fun out => pkScriptKeys env addrs isSStx out.version out.pkScript

/-- A transaction that is indexed with a block: its place, the inputs that are looked up for it, and
the keys of its outputs. -/
structure IndexedTx where
  place : ℕ
  inputs : List TxIn
  outputs : List AddrKey

/-- The transactions that are indexed with a block. -/
def indexedTxs (block parent : MsgBlock) : List IndexedTx :=
  ((parentRegularTxs block parent).zipIdx.map fun p =>
    ⟨p.2, if p.2 ≠ 0 then p.1.txIn else [], outputKeys env addrs false p.1⟩) ++
  block.sTransactions.zipIdx.map fun p =>
    ⟨p.2 + (parentRegularTxs block parent).length, spendingInputs env p.1,
      outputKeys env addrs (isSStx env p.1) p.1⟩

/-- The keys of a transaction where the outputs that its inputs name have the keys `f`. -/
def IndexedTx.keys (tx : IndexedTx) (f : TxIn → List AddrKey) : List AddrKey :=
  tx.inputs.flatMap f ++ tx.outputs

/-- The keys of what is shown of a transaction, at an index. -/
def shownKeys (shown : Shown) (i : ℕ) : List AddrKey :=
  pkScriptKeys env addrs (shown.1 == .sStx) (shown.2 i).1 (shown.2 i).2

/-- The keys of the output that an input names, by a view. -/
def viewKeys (view : UtxoViewpoint) (txIn : TxIn) : List AddrKey :=
  match view.lookupEntry txIn.previousOutPoint.hash with
  | none => []
  | some entry => shownKeys env addrs entry.shown txIn.previousOutPoint.index

/-- The keys of the output that an input names, by some transactions over a database. -/
def namedKeys (db : UtxoSet) (txs : List MsgTx) (txIn : TxIn) : List AddrKey :=
  match shownBy env db txs txIn.previousOutPoint.hash with
  | none => []
  | some shown => shownKeys env addrs shown txIn.previousOutPoint.index

/-- What is indexed with a block where the outputs that inputs name have the keys `f`. -/
def blockItems (block parent : MsgBlock) (f : TxIn → List AddrKey) : List (ℕ × List AddrKey) :=
  (indexedTxs env addrs block parent).map fun tx => (tx.place, tx.keys f)

variable {env addrs} {block parent : MsgBlock} {view : UtxoViewpoint}

theorem indexInputs_eq (data : WriteIndexData) (inputs : List TxIn) (txIdx : ℕ) :
    indexInputs env addrs view data inputs txIdx =
      (inputs.flatMap (viewKeys env addrs view)).foldl (indexKey txIdx) data := by
  rw [foldl_flatMap]
  unfold indexInputs
  congr 1
  funext data txIn
  unfold viewKeys
  cases view.lookupEntry txIn.previousOutPoint.hash <;> rfl

theorem indexOutputs_eq (data : WriteIndexData) (tx : MsgTx) (txIdx : ℕ) (isSStx : Bool) :
    indexOutputs env addrs data tx.txOut txIdx isSStx =
      (outputKeys env addrs isSStx tx).foldl (indexKey txIdx) data := by
  rw [outputKeys, foldl_flatMap]
  rfl

/-- `indexBlock` collects the items of the block. -/
theorem indexBlock_eq : indexBlock env addrs block parent view =
    collect (blockItems env addrs block parent (viewKeys env addrs view)) ∅ := by
  unfold indexBlock collect blockItems indexedTxs
  dsimp only
  rw [map_append, foldl_append, map_map, map_map, foldl_map, foldl_map]
  congr 1
  · funext data p
    simp only [comp_apply, IndexedTx.keys, foldl_append, indexInputs_eq, indexOutputs_eq]
  · congr 1
    funext data p
    simp only [comp_apply, IndexedTx.keys, foldl_append, indexInputs_eq, indexOutputs_eq]
    by_cases hzero : p.2 ≠ 0
    · rw [if_pos hzero, if_pos hzero]
    · rw [if_neg hzero, if_neg hzero]
      rfl

variable (env addrs block parent) in
theorem map_place_indexedTxs : (indexedTxs env addrs block parent).map IndexedTx.place =
    range ((parentRegularTxs block parent).length + block.sTransactions.length) := by
  have hfirst : ∀ txs : List MsgTx, txs.zipIdx.map Prod.snd = range txs.length := by
    intro txs
    rw [zipIdx_map_snd, range_eq_range']
  unfold indexedTxs
  rw [map_append, map_map, map_map, range_add, ← hfirst, ← hfirst block.sTransactions, map_map]
  refine congrArg₂ _ rfl (map_congr_left fun p _ => ?_)
  exact Nat.add_comm _ _

variable (env addrs block parent) in
/-- The items of a block are in order. -/
theorem pairwise_blockItems (f : TxIn → List AddrKey) :
    (blockItems env addrs block parent f).Pairwise fun item later => item.1 < later.1 := by
  have hplaces : (blockItems env addrs block parent f).map Prod.fst =
      range ((parentRegularTxs block parent).length + block.sTransactions.length) := by
    rw [blockItems, map_map]
    exact map_place_indexedTxs env addrs block parent
  exact pairwise_map.1 (hplaces ▸ pairwise_lt_range)

/-- The transactions of a block that concern an address. -/
theorem placesOf_blockItems (f : TxIn → List AddrKey) (key : AddrKey) :
    placesOf (blockItems env addrs block parent f) key =
      ((indexedTxs env addrs block parent).filter fun tx => key ∈ tx.keys f).map
        IndexedTx.place := by
  rw [placesOf, blockItems, filter_map, map_map]
  rfl

variable {f g : TxIn → List AddrKey} {tx : IndexedTx}

theorem filter_keys_sublist
    (hsub : ∀ tx ∈ indexedTxs env addrs block parent, ∀ key ∈ tx.keys g, key ∈ tx.keys f)
    (key : AddrKey) :
    ((indexedTxs env addrs block parent).filter fun tx => key ∈ tx.keys g).Sublist
      ((indexedTxs env addrs block parent).filter fun tx => key ∈ tx.keys f) := by
  have hpart : (indexedTxs env addrs block parent).filter (fun tx => key ∈ tx.keys g) =
      ((indexedTxs env addrs block parent).filter fun tx => key ∈ tx.keys f).filter fun tx =>
        key ∈ tx.keys g := by
    rw [filter_filter]
    refine filter_congr fun tx htx => ?_
    by_cases hkey : key ∈ tx.keys g
    · simp [hkey, hsub tx htx key hkey]
    · simp [hkey]
  rw [hpart]
  exact filter_sublist

/-- Two views index as many entries iff they name the same addresses. -/
theorem length_placesOf_eq_iff
    (hsub : ∀ tx ∈ indexedTxs env addrs block parent, ∀ key ∈ tx.keys g, key ∈ tx.keys f) :
    (∀ key, (placesOf (blockItems env addrs block parent g) key).length =
      (placesOf (blockItems env addrs block parent f) key).length) ↔
    ∀ tx ∈ indexedTxs env addrs block parent, ∀ key ∈ tx.keys f, key ∈ tx.keys g := by
  simp only [placesOf_blockItems, length_map]
  constructor
  · intro hlen tx htx key hkey
    have heq := (filter_keys_sublist hsub key).eq_of_length (hlen key)
    have hmem : tx ∈ (indexedTxs env addrs block parent).filter fun tx => key ∈ tx.keys g := by
      rw [heq]
      exact mem_filter.2 ⟨htx, by simpa using hkey⟩
    simpa using (mem_filter.1 hmem).2
  · intro hkeys key
    refine congrArg length (filter_congr fun tx htx => ?_)
    rw [decide_eq_decide]
    exact ⟨hsub tx htx key, hkeys tx htx key⟩

/-- The addresses of a transaction. -/
theorem IndexedTx.mem_keys {f : TxIn → List AddrKey} {key : AddrKey} :
    key ∈ tx.keys f ↔ (∃ txIn ∈ tx.inputs, key ∈ f txIn) ∨ key ∈ tx.outputs := by
  rw [IndexedTx.keys, mem_append, mem_flatMap]

theorem IndexedTx.keys_congr (h : ∀ txIn ∈ tx.inputs, f txIn = g txIn) : tx.keys f = tx.keys g := by
  unfold IndexedTx.keys
  rw [flatMap_congr h]

end Items

/-! ## Writing and removing -/

section Write

variable {bucket : AddrBucket} {items : List (ℕ × List AddrKey)} {key : AddrKey}
  {xs : AddrKey → List TxIndexEntry}

/-- The bucket holds these entries for each address. -/
def HoldsEntries (bucket : AddrBucket) (xs : AddrKey → List TxIndexEntry) : Prop :=
  ∀ key, Lists level0MaxEntries (bucket key) (xs key)

/-- The entries of an address, from the highest of its levels down. -/
def entriesFor (bucket : AddrBucket) (key : AddrKey) : List TxIndexEntry :=
  concat (bucket key) numLevels

/-- The entries of an address are those it should hold. -/
theorem entriesFor_eq (h : HoldsEntries bucket xs)
    (hlen : (xs key).length < 2^64) : entriesFor bucket key = xs key := by
  obtain ⟨n, hlevelled, hxs⟩ := h key
  have hn : n ≤ 65 := hlevelled.le_of_length_lt (hxs ▸ lt_of_lt_of_le hlen (by decide))
  rw [entriesFor, hlevelled.concat_eq (by unfold numLevels; omega), hxs]

/-- Putting entries appends them. -/
theorem putEntries_spec {levels : AddrLevels TxIndexEntry} {xs : List TxIndexEntry}
    (es : List TxIndexEntry)
    (h : Lists level0MaxEntries levels xs) (hlen : xs.length + es.length < 2^64) :
    ∃ levels', putEntries levels (es.map some) = .ok levels' ∧
    Lists level0MaxEntries levels' (xs ++ es) := by
  induction es generalizing levels xs with
  | nil => exact ⟨levels, rfl, by rwa [append_nil]⟩
  | cons e es ih =>
    rw [length_cons] at hlen
    obtain ⟨levels1, hput, h1⟩ := dbPutAddrIndexEntry_spec h (by omega) e
    obtain ⟨levels', hrest, h'⟩ := ih h1 (by
      rw [length_append, length_singleton]
      omega)
    refine ⟨levels', ?_, by rwa [append_assoc, singleton_append] at h'⟩
    rw [putEntries, map_cons, foldlM_cons]
    simp only [hput, ok_bind]
    exact hrest

/-- A loop over addresses, one step for each. -/
theorem exists_foldlM_update {l : List (AddrKey × List ℕ)} (hnodup : (l.map Prod.fst).Nodup)
    (step : AddrLevels TxIndexEntry → List ℕ → Except Err (AddrLevels TxIndexEntry))
    (ys : AddrKey → List TxIndexEntry) (h : HoldsEntries bucket xs)
    (hstep : ∀ p ∈ l, ∀ levels, Lists level0MaxEntries levels (xs p.1) →
      ∃ levels', step levels p.2 = .ok levels' ∧ Lists level0MaxEntries levels' (ys p.1))
    (hother : ∀ key ∉ l.map Prod.fst, ys key = xs key) :
    ∃ bucket', l.foldlM (fun bucket p => do
        pure (update bucket p.1 (← step (bucket p.1) p.2))) bucket = .ok bucket' ∧
      HoldsEntries bucket' ys := by
  induction l generalizing bucket xs with
  | nil =>
    have hsame : ys = xs := funext fun key => hother key not_mem_nil
    exact ⟨bucket, rfl, hsame ▸ h⟩
  | cons p l ih =>
    rw [map_cons, nodup_cons] at hnodup
    obtain ⟨levels', hok, hlists⟩ := hstep p mem_cons_self (bucket p.1) (h p.1)
    have h1 : HoldsEntries (update bucket p.1 levels') (update xs p.1 (ys p.1)) := by
      intro key
      rw [update_apply, update_apply]
      split_ifs with hkey
      · exact hkey ▸ hlists
      · exact h key
    obtain ⟨bucket', hrest, h'⟩ := ih hnodup.2 h1 (fun q hq levels hlevels => by
        have hne : q.1 ≠ p.1 := fun heq => hnodup.1 (heq ▸ mem_map_of_mem hq)
        rw [update_of_ne hne] at hlevels
        exact hstep q (mem_cons_of_mem _ hq) levels hlevels)
      (fun key hkey => by
        by_cases heq : key = p.1
        · rw [heq, update_self]
        · rw [update_of_ne heq]
          exact hother key (by simp [heq, hkey]))
    refine ⟨bucket', ?_, h'⟩
    rw [foldlM_cons]
    simp only [hok, ok_bind, pure_bind]
    exact hrest

theorem mem_toList_collect (horder : items.Pairwise fun item later => item.1 < later.1)
    {p : AddrKey × List ℕ} :
    p ∈ (collect items ∅).toList ↔ p.2 ≠ [] ∧ p.2 = placesOf items p.1 := by
  obtain ⟨key, idxs⟩ := p
  rw [Std.ExtTreeMap.mem_toList_iff_getElem?_eq_some, getElem?_collect horder]
  split_ifs with hnil
  · exact iff_of_false nofun fun ⟨hne, heq⟩ => hne (heq.trans hnil)
  · rw [Option.some.injEq]
    exact ⟨fun heq => heq ▸ ⟨hnil, rfl⟩, fun h => h.2.symm⟩

theorem nodup_toList (data : WriteIndexData) : (data.toList.map Prod.fst).Nodup := by
  have hkeys : data.toList.Pairwise fun p q => p.1 ≠ q.1 :=
    Std.ExtTreeMap.distinct_keys_toList.imp fun h he => h (by simp [he])
  exact pairwise_map.2 hkeys

theorem placesOf_eq_nil (horder : items.Pairwise fun item later => item.1 < later.1)
    (h : key ∉ (collect items ∅).toList.map Prod.fst) : placesOf items key = [] := by
  by_contra hne
  exact h (mem_map.2 ⟨(key, placesOf items key), (mem_toList_collect horder).2 ⟨hne, rfl⟩, rfl⟩)

theorem map_getElem?_eq {es : List TxIndexEntry} {idxs : List ℕ} (h : ∀ i ∈ idxs, i < es.length) :
    ∃ new : List TxIndexEntry, idxs.map (es[·]?) = new.map some ∧ new.length = idxs.length := by
  induction idxs with
  | nil => exact ⟨[], rfl, rfl⟩
  | cons i idxs ih =>
    obtain ⟨hi, h⟩ := forall_mem_cons.1 h
    obtain ⟨new, hmap, hlen⟩ := ih h
    refine ⟨es[i] :: new, ?_, by rw [length_cons, length_cons, hlen]⟩
    rw [map_cons, map_cons, hmap, getElem?_eq_getElem hi]

variable {env : Env} {addrs : Addresses} {db : TxBuckets} {block parent : MsgBlock}
  {view : UtxoViewpoint} {xs : AddrKey → List TxIndexEntry}

/-- What `ConnectBlock` and `DisconnectBlock` need of a block: it has been numbered by the
transaction index, and so has its parent where its transactions are taken up. -/
structure Numbered (env : Env) (db : TxBuckets) (block parent : MsgBlock) : Prop where
  fits : block.Fits
  parentFits : parent.Fits
  number : ∃ id, dbFetchBlockIDByHash db (env.blockHash block.header) = .ok id
  parentNumber : indexesParent block = true →
    ∃ id, dbFetchBlockIDByHash db (env.blockHash parent.header) = .ok id

/-- `ConnectBlock` appends the entries of the block. -/
theorem connectBlock_spec (hnumbered : Numbered env db block parent) (h : HoldsEntries bucket xs)
    (hlen : ∀ key, (xs key).length + (placesOf (blockItems env addrs block parent
      (viewKeys env addrs view)) key).length < 2^64) :
    ∃ (bucket' : AddrBucket) (new : AddrKey → List TxIndexEntry),
      bucket.connectBlock env addrs db block parent view = .ok bucket' ∧
      (∀ key, (new key).length =
        (placesOf (blockItems env addrs block parent (viewKeys env addrs view)) key).length) ∧
      HoldsEntries bucket' fun key => xs key ++ new key := by
  have horder := pairwise_blockItems env addrs block parent (viewKeys env addrs view)
  obtain ⟨hloc, -, hplaces⟩ := locsOf_spec env hnumbered.fits
  obtain ⟨hploc, hpplaces, -⟩ := locsOf_spec env hnumbered.parentFits
  obtain ⟨id, hid⟩ := hnumbered.number
  -- the places of the transactions that are taken up
  have hparent : ∃ locs parentID, parentTxLocs env db block parent = .ok (locs, parentID) ∧
      locs.length = (parentRegularTxs block parent).length := by
    unfold parentTxLocs parentRegularTxs
    by_cases hindexes : indexesParent block = true
    · obtain ⟨parentID, hparentID⟩ := hnumbered.parentNumber hindexes
      refine ⟨(locsOf parent).1, parentID, ?_, ?_⟩
      · simp only [if_pos hindexes, hploc, hparentID, ok_bind]
        rfl
      · rw [if_pos hindexes, hpplaces.length]
    · exact ⟨[], 0, by rw [if_neg hindexes]; rfl, by rw [if_neg hindexes]; rfl⟩
  obtain ⟨locs, parentID, hofParent, hlocs⟩ := hparent
  have hslocs := hplaces.length
  unfold AddrBucket.connectBlock
  simp only [hofParent, hloc, ok_bind]
  by_cases hnone : locs.length + (locsOf block).2.length = 0
  · -- no transaction is indexed
    rw [if_pos hnone]
    have hempty :
        ∀ key, placesOf (blockItems env addrs block parent (viewKeys env addrs view)) key = [] := by
      intro key
      have hrange := map_place_indexedTxs env addrs block parent
      rw [show (parentRegularTxs block parent).length + block.sTransactions.length = 0 by omega,
        range_zero, map_eq_nil_iff] at hrange
      rw [placesOf_blockItems, hrange]
      rfl
    refine ⟨bucket, fun _ => [], rfl, fun key => by rw [hempty]; rfl, ?_⟩
    simpa using h
  · rw [if_neg hnone]
    simp only [hid, ok_bind, indexBlock_eq]
    generalize hes :
      locs.map (putTxIndexEntry parentID) ++ (locsOf block).2.map (putTxIndexEntry id) = es
    have hbound :
        ∀ key, ∀ i ∈ placesOf (blockItems env addrs block parent (viewKeys env addrs view)) key,
        i < es.length := by
      intro key i hi
      rw [placesOf_blockItems] at hi
      obtain ⟨tx, htx, rfl⟩ := mem_map.1 hi
      have hplace := mem_map_of_mem (f := IndexedTx.place) (mem_filter.1 htx).1
      rw [map_place_indexedTxs, mem_range] at hplace
      rw [← hes, length_append, length_map, length_map]
      omega
    choose new hnew hnewlen using fun key => map_getElem?_eq (hbound key)
    obtain ⟨bucket', hok, hholds⟩ :=
      exists_foldlM_update (nodup_toList (collect (blockItems env addrs block
        parent (viewKeys env addrs view)) ∅)) (fun levels idxs =>
          putEntries levels (idxs.map (es[·]?)))
      (fun key => xs key ++ new key) h
      (fun p hp levels hlevels => by
        obtain ⟨-, hidxs⟩ := (mem_toList_collect horder).1 hp
        rw [hidxs, hnew]
        exact putEntries_spec (new p.1) hlevels (by rw [hnewlen]; exact hlen p.1))
      (fun key hkey => by
        have hnil := placesOf_eq_nil horder hkey
        have hzero := hnewlen key
        rw [hnil, length_nil, length_eq_zero_iff] at hzero
        simp only [hzero, append_nil])
    exact ⟨bucket', new, hok, hnewlen, hholds⟩

/-- `DisconnectBlock` takes as many entries off the end as it indexes. -/
theorem disconnectBlock_spec (h : HoldsEntries bucket xs) (hlen : ∀ key, (xs key).length < 2^64)
    (hcount : ∀ key,
      (placesOf (blockItems env addrs block parent (viewKeys env addrs view)) key).length ≤
      (xs key).length) :
    ∃ bucket', bucket.disconnectBlock env addrs block parent view = .ok bucket' ∧
      HoldsEntries bucket' fun key => (xs key).take ((xs key).length -
        (placesOf (blockItems env addrs block parent (viewKeys env addrs view)) key).length) := by
  have horder := pairwise_blockItems env addrs block parent (viewKeys env addrs view)
  unfold AddrBucket.disconnectBlock
  rw [indexBlock_eq]
  refine exists_foldlM_update (nodup_toList _)
    (fun levels idxs => dbRemoveAddrIndexEntries levels idxs.length) _ h
      (fun p hp levels hlevels => ?_)
    (fun key hkey => ?_)
  · obtain ⟨-, hidxs⟩ := (mem_toList_collect horder).1 hp
    rw [hidxs]
    exact dbRemoveAddrIndexEntries_spec hlevels (hlen p.1) (hcount p.1)
  · rw [placesOf_eq_nil horder hkey, length_nil, Nat.sub_zero, take_length]

end Write

/-! ## The two views -/

section Views

variable {env : Env} {addrs : Addresses} {db : UtxoSet} {block parent : MsgBlock} {c d : Connecting}
  {stxos : List SpentTxOut}

/-- The inputs that are looked up for a transaction are spent by the block, or are the null input of
a coinbase. -/
theorem mem_spentInputs_of_mem_indexedTxs (h : FreshTxs env db block parent) {tx : IndexedTx}
    (htx : tx ∈ indexedTxs env addrs block parent) {txIn : TxIn} (hin : txIn ∈ tx.inputs) :
    txIn ∈ (appliedTxs env block parent).flatMap (spentInputs env) ∨
    txIn.previousOutPoint.hash = 0 := by
  rcases mem_append.1 htx with htx | htx
  · obtain ⟨⟨tx, i⟩, hp, rfl⟩ := mem_map.1 htx
    have hmem := fst_mem_of_mem_zipIdx hp
    unfold parentRegularTxs at hmem
    split_ifs at hmem with hindexes
    · dsimp only at hin hmem
      split_ifs at hin with hzero
      · cases hcb : isCoinBaseTx tx with
        | true =>
          -- a coinbase has the null input only
          right
          unfold isCoinBaseTx at hcb
          split at hcb
          · rename_i only honly
            rw [honly, mem_singleton] at hin
            rw [Bool.and_eq_true, beq_iff_eq, beq_iff_eq] at hcb
            rw [hin, hcb.2]
          · cases hcb
        | false =>
          left
          rw [indexesParent, Bool.and_eq_true, decide_eq_true_eq] at hindexes
          refine mem_flatMap.2 ⟨tx, ?_, ?_⟩
          · rw [appliedTxs, if_pos ⟨by omega, regularTxTreeValid_of_approvesParent hindexes.1⟩]
            exact mem_append_left _ hmem
          · rw [spentInputs, hcb, spendingInputs_eq (h.sane.regular tx hmem).1]
            exact hin
      · exact absurd hin not_mem_nil
    · exact absurd hmem not_mem_nil
  · obtain ⟨⟨tx, i⟩, hp, rfl⟩ := mem_map.1 htx
    have hmem := fst_mem_of_mem_zipIdx hp
    refine .inl (mem_flatMap.2 ⟨tx, mem_append_right _ hmem, ?_⟩)
    rw [spentInputs, h.stake tx hmem]
    exact hin

variable (h : FreshTxs env db block parent)
  (hzero : shownBy env db (comingTxs block parent) 0 = none)
  (hc : connectView env db block parent = .ok c) {tx : IndexedTx}
  (htx : tx ∈ indexedTxs env addrs block parent)
  {txIn : TxIn} (hin : txIn ∈ tx.inputs)

include h hzero hc htx hin

/-- The addresses that an input names when the block is connected. -/
theorem viewKeys_connectView :
    viewKeys env addrs c.view txIn = namedKeys env addrs db (comingTxs block parent) txIn := by
  have hconnects := view_connectTransactions h hc
  unfold viewKeys namedKeys
  cases hlookup : c.view.lookupEntry txIn.previousOutPoint.hash with
  | some entry => rw [hconnects.shows _ entry (entryOf_of_lookupEntry hlookup)]
  | none =>
    rcases mem_spentInputs_of_mem_indexedTxs h htx hin with hspent | hnull
    · obtain ⟨entry, hentry⟩ := hconnects.present txIn (mem_reverse.2 hspent)
      rw [hlookup] at hentry
      cases hentry
    · rw [hnull, hzero]

/-- The addresses that it names when the block is disconnected. -/
theorem viewKeys_disconnectView (hdb : StoredSet db)
    (hstxos : serializeSpendJournalEntry stxos = serializeSpendJournalEntry c.stxos)
    (hd : disconnectView env (dbPutUtxoView db c.view) block parent stxos = .ok d) :
    viewKeys env addrs d.view txIn = namedKeys env addrs db [] txIn := by
  have hdisconnects := view_disconnectTransactions h hdb hc hstxos hd
  have hnil : shownBy env db [] txIn.previousOutPoint.hash =
      db[txIn.previousOutPoint.hash]?.map UtxoEntry.shown := rfl
  by_cases hcoming : txIn.previousOutPoint.hash ∈ (comingTxs block parent).map env.txHash
  · -- the transaction came with the block: its entry is empty, and the database has none
    have hkeys : namedKeys env addrs db [] txIn = [] := by
      rw [namedKeys, hnil, h.getElem?_eq_none hcoming, Option.map_none]
    rcases mem_spentInputs_of_mem_indexedTxs h htx hin with hspent | hnull
    · obtain ⟨spender, hspender, hspent⟩ := mem_flatMap.1 hspent
      obtain ⟨origin, horigin, heq⟩ := mem_map.1 (h.applied spender hspender txIn hspent hcoming)
      obtain ⟨entry, hlookup, hempty⟩ := hdisconnects.cleared origin horigin
      rw [heq] at hlookup
      rw [hkeys, viewKeys, hlookup]
      have hscript : entry.pkScriptByIndex txIn.previousOutPoint.index = [] := by
        simp [UtxoEntry.pkScriptByIndex, hempty]
      simp only [shownKeys, UtxoEntry.shown, UtxoEntry.scriptAt, hscript, pkScriptKeys]
      split
      · rfl
      · split_ifs
        · rw [addrs.commitmentKey_nil]
        · exact addrs.scriptKeys_nil
    · obtain ⟨origin, horigin, heq⟩ := mem_map.1 hcoming
      have hshown := shownBy_of_mem db h.nodup horigin
      rw [heq, hnull, hzero] at hshown
      cases hshown
  · have hshownBy : shownBy env db (comingTxs block parent) txIn.previousOutPoint.hash = _ :=
      shownBy_of_not_mem hcoming
    rcases mem_spentInputs_of_mem_indexedTxs h htx hin with hspent | hnull
    · obtain ⟨entry, output, hlookup, hout⟩ := hdisconnects.undone txIn hspent hcoming
      obtain ⟨shown, hshown, htype, hscripts⟩ := hdisconnects.restores _ entry hcoming
        (entryOf_of_lookupEntry hlookup)
      rw [viewKeys, hlookup, namedKeys, hnil, ← hshownBy, hshown]
      have hscript :
          entry.scriptAt txIn.previousOutPoint.index = shown.2 txIn.previousOutPoint.index := by
        rw [UtxoEntry.scriptAt_eq, hout, ← hscripts _ output hout]
        rfl
      simp only [shownKeys, UtxoEntry.shown, hscript, htype]
    · rw [hnull] at hshownBy hcoming
      rw [viewKeys, namedKeys, hnil, hnull, ← hshownBy, hzero]
      cases hlookup : d.view.lookupEntry 0 with
      | none => rfl
      | some entry =>
        obtain ⟨shown, hshown, -⟩ :=
          hdisconnects.restores 0 entry hcoming (entryOf_of_lookupEntry hlookup)
        rw [hzero] at hshown
        cases hshown

end Views

/-! ## Disconnecting restores -/

section Restore

variable (env : Env) (addrs : Addresses) (db : UtxoSet) (block parent : MsgBlock)

/-- Every address of an output that the block spends occurs in the outputs of the transaction that
spends it, or in an output of an earlier block that the transaction spends too. For outputs of
earlier blocks this is so. -/
def FindsAgain : Prop :=
  ∀ tx ∈ indexedTxs env addrs block parent, ∀ txIn ∈ tx.inputs,
    ∀ key ∈ namedKeys env addrs db (comingTxs block parent) txIn,
    key ∈ tx.keys (namedKeys env addrs db [])

instance : Decidable (FindsAgain env addrs db block parent) :=
  inferInstanceAs (Decidable (∀ _ ∈ _, _))

/-- `ConnectBlock` and then `DisconnectBlock`, with the views `view` and `view'`, leave every
address the entries that it had. -/
def RestoresEntries (tx : TxBuckets) (bucket : AddrBucket) (view view' : UtxoViewpoint) : Prop :=
  ∃ bucket₁ bucket₂, bucket.connectBlock env addrs tx block parent view = .ok bucket₁ ∧
    bucket₁.disconnectBlock env addrs block parent view' = .ok bucket₂ ∧
    ∀ key, entriesFor bucket₂ key = entriesFor bucket key

variable {env addrs db block parent} {c d : Connecting} {stxos : List SpentTxOut}

/-- Without the block's own transactions an input names no more. -/
theorem mem_namedKeys (h : FreshTxs env db block parent) {txIn : TxIn} {key : AddrKey}
    (hkey : key ∈ namedKeys env addrs db [] txIn) :
    key ∈ namedKeys env addrs db (comingTxs block parent) txIn := by
  have hnil : shownBy env db [] txIn.previousOutPoint.hash =
      db[txIn.previousOutPoint.hash]?.map UtxoEntry.shown := rfl
  by_cases hcoming : txIn.previousOutPoint.hash ∈ (comingTxs block parent).map env.txHash
  · rw [namedKeys, hnil, h.getElem?_eq_none hcoming] at hkey
    exact absurd hkey not_mem_nil
  · rw [namedKeys, shownBy_of_not_mem hcoming, ← hnil]
    exact hkey

/-- The address index is restored exactly when every address of an output that the block spends is
found again without the outputs that the block has created. -/
theorem restoresEntries_iff {tx : TxBuckets} {bucket : AddrBucket}
    {xs : AddrKey → List TxIndexEntry} (h : FreshTxs env db block parent) (hdb : StoredSet db)
    (hzero : shownBy env db (comingTxs block parent) 0 = none)
    (hc : connectView env db block parent = .ok c)
    (hstxos : serializeSpendJournalEntry stxos = serializeSpendJournalEntry c.stxos)
    (hd : disconnectView env (dbPutUtxoView db c.view) block parent stxos = .ok d)
    (hnumbered : Numbered env tx block parent) (hholds : HoldsEntries bucket xs)
    (hlen : ∀ key, (xs key).length + (indexedTxs env addrs block parent).length < 2^64) :
    RestoresEntries env addrs block parent tx bucket c.view d.view ↔
    FindsAgain env addrs db block parent := by
  have hf : ∀ tx ∈ indexedTxs env addrs block parent, tx.keys (viewKeys env addrs c.view) =
      tx.keys (namedKeys env addrs db (comingTxs block parent)) := fun tx htx =>
    IndexedTx.keys_congr fun txIn hin => viewKeys_connectView h hzero hc htx hin
  have hg : ∀ tx ∈ indexedTxs env addrs block parent, tx.keys (viewKeys env addrs d.view) =
      tx.keys (namedKeys env addrs db []) := fun tx htx =>
    IndexedTx.keys_congr fun txIn hin => viewKeys_disconnectView h hzero hc htx hin hdb hstxos hd
  have hsub : ∀ tx ∈ indexedTxs env addrs block parent, ∀ key ∈ tx.keys (viewKeys env addrs d.view),
      key ∈ tx.keys (viewKeys env addrs c.view) := by
    intro tx htx key hkey
    rw [hg tx htx, IndexedTx.mem_keys] at hkey
    rw [hf tx htx, IndexedTx.mem_keys]
    exact hkey.imp_left fun ⟨txIn, hin, hkey⟩ => ⟨txIn, hin, mem_namedKeys h hkey⟩
  -- as many entries are appended as one view counts, and as many removed as the other one does
  have hbound : ∀ key, (xs key).length + (placesOf (blockItems env addrs block parent
      (viewKeys env addrs c.view)) key).length < 2^64 := fun key =>
    lt_of_le_of_lt
      (Nat.add_le_add_left (by rw [placesOf_blockItems, length_map]; exact length_filter_le _ _) _)
        (hlen key)
  obtain ⟨bucket₁, new, hconnect, hnew, hholds1⟩ := connectBlock_spec hnumbered hholds hbound
  have hle : ∀ key,
      (placesOf (blockItems env addrs block parent (viewKeys env addrs d.view)) key).length ≤
      (new key).length := by
    intro key
    rw [hnew, placesOf_blockItems, placesOf_blockItems, length_map, length_map]
    exact (filter_keys_sublist hsub key).length_le
  obtain ⟨bucket₂, hdisconnect, hholds2⟩ := disconnectBlock_spec hholds1
    (fun key => by rw [length_append, hnew]; exact hbound key)
    (fun key => by rw [length_append]; exact le_trans (hle key) (Nat.le_add_left _ _))
  have hrestored : ∀ key, entriesFor bucket₂ key = entriesFor bucket key ↔
      (placesOf (blockItems env addrs block parent (viewKeys env addrs d.view)) key).length =
        (placesOf (blockItems env addrs block parent (viewKeys env addrs c.view)) key).length := by
    intro key
    have hsmall : (xs key).length < 2^64 := lt_of_le_of_lt (Nat.le_add_right _ _) (hbound key)
    have hlek := hle key
    have hboundk := hbound key
    rw [entriesFor_eq hholds hsmall, entriesFor_eq hholds2 (by
      rw [length_take, length_append, hnew]
      omega), ← hnew]
    constructor
    · intro heq
      have hlength := congrArg length heq
      rw [length_take, length_append] at hlength
      omega
    · intro heq
      rw [heq, length_append, Nat.add_sub_cancel, take_left]
  calc RestoresEntries env addrs block parent tx bucket c.view d.view
      ↔ ∀ key, entriesFor bucket₂ key = entriesFor bucket key := by
        constructor
        · rintro ⟨b1, b2, hb1, hb2, hkeys⟩
          rw [hconnect] at hb1
          cases hb1
          rw [hdisconnect] at hb2
          cases hb2
          exact hkeys
        · exact fun hkeys => ⟨bucket₁, bucket₂, hconnect, hdisconnect, hkeys⟩
    _ ↔ ∀ tx ∈ indexedTxs env addrs block parent, ∀ key ∈ tx.keys (viewKeys env addrs c.view),
          key ∈ tx.keys (viewKeys env addrs d.view) := by
        rw [← length_placesOf_eq_iff hsub]
        exact forall_congr' hrestored
    _ ↔ FindsAgain env addrs db block parent := by
        refine forall₂_congr fun tx htx => ?_
        rw [hf tx htx, hg tx htx]
        constructor
        · intro hkeys txIn hin key hkey
          exact hkeys key (IndexedTx.mem_keys.2 (.inl ⟨txIn, hin, hkey⟩))
        · intro hfinds key hkey
          rcases IndexedTx.mem_keys.1 hkey with ⟨txIn, hin, hkey⟩ | hkey
          · exact hfinds txIn hin key hkey
          · exact mem_append_right _ hkey

end Restore

/-! ## A block that spends what it has created -/

/-- The addresses of the scripts that `payTo` makes. -/
def sampleAddrs : Addresses where
  scriptKeys := fun script => match script with
    | 0x76 :: _ :: _ :: key :: _ => [key.toNat]
    | _ => []
  commitmentKey := fun _ => none
  redeemScript := fun _ => none
  scriptKeys_nil := rfl
  commitmentKey_nil := rfl

/-- A key block with a transaction that pays to the address 3, and one that spends this and pays to
another address. -/
def twoStepBlock (key : UInt8) : MsgBlock :=
  fullHeader (blockOf (sampleEnv sampleParams) (sampleHeader 2 1 2 1 1)
    [coinbaseTx 20 55 [payTo 9 0, payTo 2 0], coinbaseTx 21 0 [heightOut 2, payTo 2 105],
      plainTx 22 [spend 10 0 0 1000 1 0] [payTo 3 1000],
      plainTx 23 [spend 22 0 0 1000 2 2] [payTo key 900]] [])

/-- The micro block on it, which applies its transactions. -/
def twoStepChild : MsgBlock :=
  fullHeader (blockOf (sampleEnv sampleParams) (sampleHeader 3 2 103 2 2)
    [coinbaseTx 30 0 [heightOut 3, payTo 2 30]] [])

/-- The numbers of the two blocks. -/
def twoStepNumbers : TxBuckets :=
  dbPutBlockIDIndexEntry (dbPutBlockIDIndexEntry ⟨∅, ∅, ∅⟩ (sampleBlockHash 2) 2)
    (sampleBlockHash 103) 3

/-- The output that the first transaction spends, as the only one of a database. -/
def twoStepUtxos : UtxoSet :=
  dbPutUtxoView ∅
    (addTxOuts (sampleEnv sampleParams) ⟨∅, 0, .prevRegular⟩
      (coinbaseTx 10 1000 [payTo 1 1000]) 1 0)

/-- The sample set is clean. -/
theorem storedSet_twoStepUtxos : StoredSet twoStepUtxos := by
  refine StoredSet.dbPutUtxoView (fun hash entry hentry => ?_)
    (Loaded.addTxOuts (fun hash x hx => ?_) _ _ _)
  · simp at hentry
  · simp at hx

/-- The sample transactions are fresh. -/
theorem freshTxs_twoStep :
    FreshTxs (sampleEnv sampleParams) twoStepUtxos twoStepChild (twoStepBlock 3) where
  sane := saneBlock_of_checkBlockSanity
    (show checkBlockSanity (sampleEnv sampleParams) (twoStepBlock 3) 10 false =
      .ok ⟨⟩ by decide +kernel)
  stake := by decide +kernel
  nodup := by decide +kernel
  fresh := by decide +kernel
  inOrder := by decide +kernel
  notOwn := by decide +kernel
  applied := by decide +kernel

/-- A block that spends inside itself. -/
theorem restoresEntries_iff_twoStepChild : ∃ c,
    connectView (sampleEnv sampleParams) twoStepUtxos twoStepChild (twoStepBlock 3) = .ok c ∧ ∃ d,
    disconnectView (sampleEnv sampleParams) (dbPutUtxoView twoStepUtxos c.view) twoStepChild
      (twoStepBlock 3) c.stxos = .ok d ∧
    FindsAgain (sampleEnv sampleParams) sampleAddrs twoStepUtxos twoStepChild (twoStepBlock 3) ∧
    RestoresEntries (sampleEnv sampleParams) sampleAddrs twoStepChild
      (twoStepBlock 3) twoStepNumbers (fun _ _ => []) c.view d.view := by
  have hfinds :
      FindsAgain (sampleEnv sampleParams) sampleAddrs twoStepUtxos twoStepChild
        (twoStepBlock 3) := by
    decide +kernel
  have hnumbered : Numbered (sampleEnv sampleParams) twoStepNumbers twoStepChild (twoStepBlock 3) :=
    ⟨by decide +kernel, by decide +kernel, ⟨3, by decide +kernel⟩, fun _ => ⟨2, by decide +kernel⟩⟩
  have hlen : (indexedTxs (sampleEnv sampleParams) sampleAddrs twoStepChild
      (twoStepBlock 3)).length < 2^64 := by
    decide +kernel
  refine ⟨_, eq_ok_valueOf ?hc, _, eq_ok_valueOf ?hd, hfinds, (restoresEntries_iff freshTxs_twoStep
    storedSet_twoStepUtxos (by decide +kernel) (eq_ok_valueOf ?hc) rfl (eq_ok_valueOf ?hd) hnumbered
    (fun _ => Lists.nil) (fun key => by rw [length_nil, Nat.zero_add]; exact hlen)).2 hfinds⟩
  · decide +kernel
  · decide +kernel

/-- A key block pays to the address 3 and spends this output to the address 4, and is accepted with
the micro block on it. The index has no entries before the micro block is connected. Disconnecting
the micro block leaves an entry at the address 3, the one of the transaction that spent from it. -/
theorem exists_entry_left : ∃ st,
    processBlocks (sampleEnv sampleParams) (fun _ _ => True) (genesisState (sampleEnv sampleParams))
      [(10, sampleBlockOne), (10, twoStepBlock 4)] = .ok st ∧
    (processBlock (sampleEnv sampleParams) st 10 twoStepChild).isOk = true ∧
    ∃ c, connectView (sampleEnv sampleParams) st.utxos twoStepChild (twoStepBlock 4) = .ok c ∧
    ∃ d, disconnectView (sampleEnv sampleParams) (dbPutUtxoView st.utxos c.view) twoStepChild
      (twoStepBlock 4) c.stxos = .ok d ∧
    ∃ bucket, AddrBucket.connectBlock (sampleEnv sampleParams) sampleAddrs
      (fun _ _ => []) twoStepNumbers twoStepChild (twoStepBlock 4) c.view = .ok bucket ∧
    ∃ bucket', bucket.disconnectBlock (sampleEnv sampleParams) sampleAddrs twoStepChild
      (twoStepBlock 4) d.view = .ok bucket' ∧
    entriesFor bucket' 3 ≠ entriesFor (fun _ _ => []) 3 := by
  decide +kernel

end Hcashd.Indexers
