import Hcashd.Blockchain.BlockRun
import Hcashd.Blockchain.Entries
import Hcashd.Blockchain.Journal

/-!
# The scripts that a view shows

An index that follows the chain looks up the outputs that a block spends in the view of that block:
the version and the script of each, and the type of its transaction. When the block is connected,
the view after `connectTransactions` shows every spent output, those of the database and those that
the block itself has created (`view_connectTransactions`). When the block is disconnected, the view
after `disconnectTransactions` shows the outputs of the database again, since they have been
restored, and none of those that the block had created, since the entries of its transactions have
been emptied (`view_disconnectTransactions`).
-/

namespace Hcashd.Blockchain

open Lib List Option Std.ExtTreeMap UtxoEntry

/-! ## What is shown -/

/-- The version and the script of an output. -/
def UtxoOutput.script (output : UtxoOutput) : ℕ × List UInt8 :=
  (output.scriptVersion, output.pkScript)

/-- The version and the script of an entry at an index, which are zero and empty for an output that
the entry does not have. -/
def UtxoEntry.scriptAt (entry : UtxoEntry) (i : ℕ) : ℕ × List UInt8 :=
  (entry.scriptVersionByIndex i, entry.pkScriptByIndex i)

/-- What is shown of a transaction: its type and its scripts. -/
abbrev Shown := Stake.TxType × (ℕ → ℕ × List UInt8)

/-- What an entry shows of its transaction. -/
def UtxoEntry.shown (entry : UtxoEntry) : Shown := (entry.txType, entry.scriptAt)

section Spec

variable (env : Env)

/-- What an entry shows that has the outputs of a transaction. -/
def shownTx (tx : MsgTx) : Shown :=
  (txType env tx, fun i => ((outputAt env tx i).map UtxoOutput.script).getD (0, []))

/-- What is shown of the transaction of a hash, by a list of transactions over a database. -/
def shownBy (db : UtxoSet) (txs : List MsgTx) (hash : Hash) : Option Shown :=
  match txs.find? fun tx => env.txHash tx = hash with
  | some tx => some (shownTx env tx)
  | none => db[hash]?.map shown

/-- The transactions that are loaded or applied with a block. -/
def comingTxs (block parent : MsgBlock) : List MsgTx := parent.transactions ++ block.sTransactions

/-- The transactions that are applied with a block, in this order. -/
def appliedTxs (block parent : MsgBlock) : List MsgTx :=
  (if block.header.height ≠ 0 ∧ regularTxTreeValid env block parent = true then parent.transactions
    else []) ++ block.sTransactions

/-- The transactions of a block are new to the database, and each spends outputs of the database or
of transactions that are applied before it. -/
structure FreshTxs (db : UtxoSet) (block parent : MsgBlock) : Prop where
  sane : SaneBlock env parent
  stake : ∀ tx ∈ block.sTransactions, isCoinBaseTx tx = false
  nodup : ((comingTxs block parent).map env.txHash).Nodup
  fresh : ∀ tx ∈ comingTxs block parent, env.txHash tx ∉ db
  inOrder : (appliedTxs env block parent).Pairwise fun tx later =>
    ∀ txIn ∈ spentInputs env tx, txIn.previousOutPoint.hash ≠ env.txHash later
  notOwn : ∀ tx ∈ appliedTxs env block parent, ∀ txIn ∈ spentInputs env tx,
    txIn.previousOutPoint.hash ≠ env.txHash tx
  applied : ∀ tx ∈ appliedTxs env block parent, ∀ txIn ∈ spentInputs env tx,
    txIn.previousOutPoint.hash ∈ (comingTxs block parent).map env.txHash →
      txIn.previousOutPoint.hash ∈ (appliedTxs env block parent).map env.txHash

end Spec

variable {env : Env} {db : UtxoSet} {block parent : MsgBlock} {txs : List MsgTx} {hash : Hash}

theorem UtxoEntry.scriptAt_eq (entry : UtxoEntry) (i : ℕ) :
    entry.scriptAt i = (entry.sparseOutputs[i]?.map UtxoOutput.script).getD (0, []) := by
  unfold scriptAt scriptVersionByIndex pkScriptByIndex
  cases entry.sparseOutputs[i]? <;> rfl

/-- A transaction of the block shows its own outputs. -/
theorem shownBy_of_mem {tx : MsgTx} (db : UtxoSet) (hnodup : (txs.map env.txHash).Nodup)
    (hmem : tx ∈ txs) :
    shownBy env db txs (env.txHash tx) = some (shownTx env tx) := by
  have hfind : txs.find? (fun tx' => env.txHash tx' = env.txHash tx) = some tx := by
    have hsome : (txs.find? fun tx' => env.txHash tx' = env.txHash tx).isSome :=
      find?_isSome.2 ⟨tx, hmem, by simp⟩
    obtain ⟨tx', hfind⟩ := isSome_iff_exists.1 hsome
    have hhash :
        env.txHash tx' = env.txHash tx := by simpa only [decide_eq_true_eq] using find?_some hfind
    rw [hfind, inj_on_of_nodup_map hnodup (mem_of_find?_eq_some hfind) hmem hhash]
  rw [shownBy, hfind]

theorem shownBy_of_not_mem (h : hash ∉ txs.map env.txHash) :
    shownBy env db txs hash = db[hash]?.map shown := by
  have hfind : txs.find? (fun tx => env.txHash tx = hash) = none := by
    rw [find?_eq_none]
    intro tx htx heq
    exact h (mem_map.2 ⟨tx, htx, by simpa using heq⟩)
  rw [shownBy, hfind]

theorem FreshTxs.getElem?_eq_none (h : FreshTxs env db block parent)
    (hmem : hash ∈ (comingTxs block parent).map env.txHash) : db[hash]? = none := by
  obtain ⟨tx, htx, rfl⟩ := mem_map.1 hmem
  exact getElem?_eq_none (h.fresh tx htx)

/-! ## Connecting -/

section Connect

/-- Every entry of a view over the database shows what it should. -/
def ShowsAll (env : Env) (db : UtxoSet) (txs : List MsgTx) (view : UtxoViewpoint) : Prop :=
  ∀ hash entry, entryOf db view hash = some entry → shownBy env db txs hash = some entry.shown

/-- A journal has, for each input of a list, the script of the output that the input spent, and the
type of its transaction if it was fully spent. -/
def Records (env : Env) (db : UtxoSet) (txs : List MsgTx) (stxo : SpentTxOut) (txIn : TxIn) :
    Prop :=
  ∃ shown, shownBy env db txs txIn.previousOutPoint.hash = some shown ∧
    shown.2 txIn.previousOutPoint.index = (stxo.scriptVersion, stxo.pkScript) ∧
    (stxo.txFullySpent = true → stxo.txType = shown.1)

/-- A state of connecting, in which the inputs `spent` have been spent, the newest first. -/
structure Connects (env : Env) (db : UtxoSet) (txs : List MsgTx) (c : Connecting)
    (spent : List TxIn) :
    Prop where
  loaded : Loaded db c.view
  shows : ShowsAll env db txs c.view
  journal : Forall₂ (Records env db txs) c.stxos spent
  present : ∀ txIn ∈ spent, ∃ entry, c.view.lookupEntry txIn.previousOutPoint.hash = some entry

/-- Spending shows the same. -/
theorem UtxoEntry.shown_spendOutput (entry : UtxoEntry) (i : ℕ) :
    (entry.spendOutput i).shown = entry.shown := by
  unfold spendOutput
  cases hi : entry.sparseOutputs[i]? with
  | none => rfl
  | some output =>
    simp only
    split_ifs with hspent
    · rfl
    · refine Prod.ext rfl (funext fun j => ?_)
      simp only [shown, scriptAt_eq, Std.ExtTreeMap.getElem?_insert]
      by_cases hj : i = j
      · subst hj
        simp [hi, UtxoOutput.script]
      · simp [hj]

variable {view : UtxoViewpoint} {entry : UtxoEntry} {c c' : Connecting} {spent : List TxIn}
  {tx : MsgTx} {hash : Hash}

/-- An entry that shows what it should. -/
theorem ShowsAll.setEntry (h : ShowsAll env db txs view)
    (hentry : shownBy env db txs hash = some entry.shown) :
    ShowsAll env db txs (view.setEntry hash entry) := by
  intro hash' entry' h'
  rw [entryOf_setEntry] at h'
  split_ifs at h' with heq
  · cases h'
    rw [← heq, hentry]
  · exact h hash' entry' h'

theorem lookupEntry_setEntry_ne_none {hash hash' : Hash}
    (h : ∃ entry, view.lookupEntry hash' = some entry) :
    ∃ entry', (view.setEntry hash entry).lookupEntry hash' = some entry' := by
  rw [lookupEntry_setEntry]
  split_ifs
  · exact ⟨entry, rfl⟩
  · exact h

/-- Spending journals the script that is shown. -/
theorem Connects.spendInput {txIn : TxIn} (h : Connects env db txs c spent)
    (hspend : spendInput c txIn = .ok c') :
    Connects env db txs c' (txIn :: spent) := by
  have hloaded := h.loaded.spendInput hspend
  unfold Blockchain.spendInput at hspend
  split at hspend
  · cases hspend
  · rename_i entry hentry
    cases hspend
    have hshown := h.shows _ entry (entryOf_of_lookupEntry hentry)
    have hspent := shown_spendOutput entry txIn.previousOutPoint.index
    refine ⟨hloaded, h.shows.setEntry (hspent ▸ hshown), .cons ?_ h.journal, fun txIn' hmem => ?_⟩
    · -- the journal is written from the entry that was spent from
      refine ⟨_, hshown, ?_, fun hfull => ?_⟩
      · exact (congrFun (congrArg Prod.snd hspent) txIn.previousOutPoint.index).symm
      · have hfull : (entry.spendOutput txIn.previousOutPoint.index).isFullySpent = true := hfull
        simp only [spentTxOut, if_pos hfull]
        exact congrArg Prod.fst hspent
    · rcases mem_cons.1 hmem with rfl | hmem
      · rw [lookupEntry_setEntry, if_pos rfl]
        exact ⟨_, rfl⟩
      · exact lookupEntry_setEntry_ne_none (h.present txIn' hmem)

/-- Spending all inputs. -/
theorem Connects.spendInputs {spent inputs : List TxIn}
    (h : Connects env db txs c spent) (hspend : inputs.foldlM Blockchain.spendInput c = .ok c') :
    Connects env db txs c' (inputs.reverse ++ spent) := by
  induction inputs generalizing c spent with
  | nil =>
    rw [foldlM_nil_eq_ok] at hspend
    exact hspend ▸ h
  | cons txIn inputs ih =>
    obtain ⟨c1, hc1, hspend⟩ := foldlM_cons_eq_ok.1 hspend
    rw [reverse_cons, append_assoc]
    exact ih (h.spendInput hc1) hspend

/-- New outputs show what they should. -/
theorem ShowsAll.addTxOuts (h : ShowsAll env db txs view)
    (hnodup : (txs.map env.txHash).Nodup) (hmem : tx ∈ txs) (height i : ℕ) :
    ShowsAll env db txs (addTxOuts env view tx height i) := by
  have hshown := shownBy_of_mem db hnodup hmem
  refine h.setEntry (hshown.trans (congrArg some (Eq.symm ?_)))
  cases hlookup : view.lookupEntry (env.txHash tx) with
  | none =>
    refine Prod.ext rfl (funext fun j => ?_)
    simp only [newTxEntry, shown, scriptAt_eq,
      getElem?_applyUpdates_spendableOuts, shownTx]
    cases outputAt env tx j <;> simp
  | some entry =>
    have hentry := h _ entry (entryOf_of_lookupEntry hlookup)
    rw [hshown, Option.some.injEq] at hentry
    refine Prod.ext (congrArg Prod.fst hentry).symm (funext fun j => ?_)
    have hscript := congrFun (congrArg Prod.snd hentry) j
    simp only [shown, scriptAt_eq, getElem?_applyUpdates_spendableOuts,
      shownTx] at hscript ⊢
    cases hout : outputAt env tx j with
    | none =>
      rw [hout] at hscript
      rw [none_or, ← hscript]
    | some output => simp

theorem Connects.addTxOuts (h : Connects env db txs c spent) (hnodup : (txs.map env.txHash).Nodup)
    (hmem : tx ∈ txs) (height i : ℕ) :
    Connects env db txs { c with view := Blockchain.addTxOuts env c.view tx height i } spent :=
  ⟨h.loaded.addTxOuts tx height i, h.shows.addTxOuts hnodup hmem height i, h.journal,
    fun txIn hmem =>
    lookupEntry_setEntry_ne_none (h.present txIn hmem)⟩

/-- Connecting a transaction keeps what is shown. -/
theorem Connects.connectTransaction {height i : ℕ}
    (h : Connects env db txs c spent) (hnodup : (txs.map env.txHash).Nodup) (hmem : tx ∈ txs)
    (hc : connectTransaction env c tx height i = .ok c') :
    Connects env db txs c' ((spentInputs env tx).reverse ++ spent) := by
  obtain ⟨c1, hc1, hc⟩ := bind_eq_ok.1 hc
  rw [spendInputs_eq] at hc1
  obtain rfl := pure_eq_ok.1 hc
  exact (h.spendInputs hc1).addTxOuts hnodup hmem height i

theorem lookupEntry_fetchUtxosMain {txSet : List Hash} (h : view.lookupEntry hash = some entry) :
    (Blockchain.fetchUtxosMain db view txSet).lookupEntry hash = some entry := by
  have hsome : view.entries[hash]? = some (some entry) := join_eq_some_iff.1 h
  have hin : hash ∈ view.entries := by
    rw [mem_iff_isSome_getElem?, hsome]
    rfl
  rw [UtxoViewpoint.lookupEntry, getElem?_fetchUtxosMain, if_neg fun hn =>
    hn.1 hin, hsome, join_some]

theorem Connects.fetchUtxosMain (h : Connects env db txs c spent) (txSet : List Hash) :
    Connects env db txs { c with view := Blockchain.fetchUtxosMain db c.view txSet } spent := by
  refine ⟨h.loaded.fetchUtxosMain txSet, fun hash entry hentry =>
    ?_, h.journal, fun txIn hmem => ?_⟩
  · rw [entryOf_fetchUtxosMain] at hentry
    exact h.shows hash entry hentry
  · obtain ⟨entry, hentry⟩ := h.present txIn hmem
    exact ⟨entry, lookupEntry_fetchUtxosMain hentry⟩

/-- Fetching keeps what is shown. -/
theorem Connects.fetchFor {viewpoint : StakeViewpoint}
    (h : Connects env db txs c spent) (hnodup : (txs.map env.txHash).Nodup)
    (hfetch : fetchFor env db c viewpoint block parent = .ok c')
    (hsub : ∀ tx ∈ treeInFlight viewpoint block parent, tx ∈ txs) :
    Connects env db txs c' spent := by
  obtain ⟨hview, hstxos⟩ := FetchRule.fetchFor
    (P := fun view => Connects env db txs { c with view := view } spent)
      ⟨fun _ _ hview => { hview with },
      fun _ tx htx height i hview => hview.addTxOuts hnodup (hsub tx htx) height i,
      fun _ txSet hview => hview.fetchUtxosMain txSet⟩ hfetch h
  obtain ⟨view, stxos⟩ := c'
  obtain rfl := hstxos
  exact hview

/-- A loop of steps that keep what is shown. -/
theorem Connects.foldlM {f : Connecting → MsgTx × ℕ → Except Err Connecting} {l : List (MsgTx × ℕ)}
    (hstep : ∀ p ∈ l, ∀ c c' spent, Connects env db txs c spent → f c p = .ok c' →
      Connects env db txs c' ((spentInputs env p.1).reverse ++ spent))
    (h : Connects env db txs c spent) (hrun : l.foldlM f c = .ok c') :
    Connects env db txs c' (((l.map Prod.fst).flatMap (spentInputs env)).reverse ++ spent) := by
  induction l generalizing c spent with
  | nil =>
    rw [foldlM_nil_eq_ok] at hrun
    exact hrun ▸ h
  | cons p l ih =>
    obtain ⟨c1, hc1, hrun⟩ := foldlM_cons_eq_ok.1 hrun
    rw [map_cons, flatMap_cons, reverse_append, append_assoc]
    exact ih (fun q hq => hstep q (mem_cons_of_mem _ hq))
      (hstep p mem_cons_self c c1 spent h hc1) hrun

variable (env db block parent) in
/-- The view of a block that is connected: `SetStakeViewpoint`, `fetchInputUtxos` and
`connectTransactions` on a new view. -/
def connectView : Except Err Connecting := do
  let c ← fetchFor env db ⟨⟨∅, block.header.prevBlock, .prevRegular⟩, []⟩ .prevRegular block parent
  connectTransactions env db c block parent

/-- After connecting, the view shows every output that the block has spent, and the journal has its
script. -/
theorem view_connectTransactions (h : FreshTxs env db block parent)
    (hc : connectView env db block parent = .ok c) :
    Connects env db (comingTxs block parent) c
      ((appliedTxs env block parent).flatMap (spentInputs env)).reverse := by
  have hparent : ∀ tx ∈ parent.transactions, tx ∈ comingTxs block parent := fun tx htx =>
    mem_append_left _ htx
  have hstake : ∀ tx ∈ block.sTransactions, tx ∈ comingTxs block parent := fun tx htx =>
    mem_append_right _ htx
  have hstart :
      Connects env db (comingTxs block parent)
        ⟨⟨∅, block.header.prevBlock, .prevRegular⟩, []⟩ [] := by
    refine ⟨?_, fun hash entry hentry => ?_, .nil, fun txIn hmem => absurd hmem not_mem_nil⟩
    · intro hash x hx
      simp at hx
    · -- nothing is loaded, and the transactions that come are new to the database
      have hdb : db[hash]? = some entry := by simpa [entryOf] using hentry
      rw [shownBy_of_not_mem, hdb, map_some]
      intro hmem
      rw [h.getElem?_eq_none hmem] at hdb
      cases hdb
  obtain ⟨c0, hfetch, hc⟩ := bind_eq_ok.1 hc
  obtain ⟨c1, hprev, hc⟩ := bind_eq_ok.1 hc
  obtain ⟨c2, hstakes, hc⟩ := bind_eq_ok.1 hc
  obtain rfl := pure_eq_ok.1 hc
  have h0 := hstart.fetchFor h.nodup hfetch hparent
  -- the regular transactions of the parent, if they are part of the chain
  have h1 : Connects env db (comingTxs block parent) c1
      ((if block.header.height ≠ 0 ∧
        regularTxTreeValid env block parent = true then parent.transactions
        else []).flatMap (spentInputs env)).reverse := by
    unfold connectPrevRegular at hprev
    by_cases hheight : block.header.height = 0
    · rw [if_pos hheight, pure_eq_ok] at hprev
      rw [if_neg fun hn => hn.1 hheight]
      exact hprev ▸ h0
    · rw [if_neg hheight] at hprev
      obtain ⟨c', hfetch', hprev⟩ := bind_eq_ok.1 hprev
      have h' := h0.fetchFor h.nodup hfetch' hparent
      by_cases hvalid : regularTxTreeValid env block parent = true
      · rw [if_pos hvalid] at hprev
        rw [if_pos ⟨hheight, hvalid⟩]
        have hrun := h'.foldlM (fun p hp c c' spent hc hstep =>
          hc.connectTransaction h.nodup (hparent p.1 (fst_mem_of_mem_zipIdx hp)) hstep) hprev
        rwa [zipIdx_map_fst, append_nil] at hrun
      · rw [if_neg hvalid, pure_eq_ok] at hprev
        rw [if_neg fun hn => hvalid hn.2]
        exact hprev ▸ h'
  have h2 := h1.foldlM (fun p hp c c' spent hc hstep => by
    obtain ⟨c3, hfetch', hstep⟩ := bind_eq_ok.1 hstep
    exact (hc.fetchFor h.nodup hfetch' fun tx htx =>
      absurd htx not_mem_nil).connectTransaction h.nodup
      (hstake p.1 (fst_mem_of_mem_zipIdx hp)) hstep) hstakes
  rw [zipIdx_map_fst, ← reverse_append, ← flatMap_append] at h2
  exact { h2 with }

end Connect

/-! ## Disconnecting -/

section Disconnect

/-- An entry says of the transaction of a hash what is shown of it, as far as it has outputs. -/
def Restores (env : Env) (db : UtxoSet) (txs : List MsgTx) (hash : Hash) (entry : UtxoEntry) :
    Prop :=
  ∃ shown, shownBy env db txs hash = some shown ∧ entry.txType = shown.1 ∧
    ∀ (i : ℕ) (output : UtxoOutput), entry.sparseOutputs[i]? = some output →
    output.script = shown.2 i

/-- A state of disconnecting, over the database `db'` that the block was written to: the inputs
`left` are still to be restored and the inputs `undone` have been, and the transactions `cleared`
have no outputs. What is restored is looked at away from the hashes of the transactions that came
with the block. -/
structure Disconnects (env : Env) (db db' : UtxoSet) (txs : List MsgTx) (t : Connecting)
    (left undone : List TxIn) (cleared : List MsgTx) : Prop where
  journal : Forall₂ (Records env db txs) t.stxos left
  restores : ∀ hash entry, hash ∉ txs.map env.txHash → entryOf db' t.view hash = some entry →
    Restores env db txs hash entry
  undone : ∀ txIn ∈ undone, txIn.previousOutPoint.hash ∉ txs.map env.txHash →
    ∃ entry output, t.view.lookupEntry txIn.previousOutPoint.hash = some entry ∧
      entry.sparseOutputs[txIn.previousOutPoint.index]? = some output
  cleared : ∀ tx ∈ cleared, ∃ entry, t.view.lookupEntry (env.txHash tx) = some entry ∧
    entry.sparseOutputs = ∅

variable {db' : UtxoSet} {t t' : Connecting} {left undone : List TxIn} {cleared : List MsgTx}

theorem getElem?_restoreOutput (entry : UtxoEntry) (txIn : TxIn) (stxo : SpentTxOut) (j : ℕ) :
    (restoreOutput entry txIn stxo).sparseOutputs[j]? = if txIn.previousOutPoint.index = j then
        some ((entry.sparseOutputs[j]?.map fun output => { output with spent := false }).getD
          ⟨stxo.pkScript, txIn.valueIn, stxo.scriptVersion, false⟩)
      else entry.sparseOutputs[j]? := by
  unfold restoreOutput
  simp only [Std.ExtTreeMap.getElem?_insert]
  by_cases hj : txIn.previousOutPoint.index = j
  · rw [if_pos (by simpa using hj), if_pos hj, hj]
    cases entry.sparseOutputs[j]? <;> rfl
  · rw [if_neg (by simpa using hj), if_neg hj]

variable {txIn : TxIn} {tx : MsgTx} {inputs : List TxIn}

/-- A restored output has the script that was journalled. -/
theorem Restores.restoreOutput {entry : UtxoEntry} {stxo : SpentTxOut}
    (h : Restores env db txs txIn.previousOutPoint.hash entry)
    (hrecord : Records env db txs stxo txIn) :
    Restores env db txs txIn.previousOutPoint.hash (restoreOutput entry txIn stxo) := by
  obtain ⟨shown, hshown, htype, hscripts⟩ := h
  obtain ⟨shown', hshown', hscript, -⟩ := hrecord
  rw [hshown, Option.some.injEq] at hshown'
  subst hshown'
  refine ⟨shown, hshown, htype, fun i output hi => ?_⟩
  rw [getElem?_restoreOutput] at hi
  split_ifs at hi with hindex
  · subst hindex
    rw [Option.some.injEq] at hi
    subst hi
    cases hout : entry.sparseOutputs[txIn.previousOutPoint.index]? with
    | none => exact hscript.symm
    | some output => exact hscripts _ output hout
  · exact hscripts i output hi

/-- One input is restored. -/
theorem Disconnects.unspendInput (h : Disconnects env db db' txs t (txIn :: left) undone cleared)
    (hother : ∀ tx ∈ cleared, txIn.previousOutPoint.hash ≠ env.txHash tx)
    (ht : unspendInput tx t txIn = .ok t') :
    Disconnects env db db' txs t' left (txIn :: undone) cleared := by
  obtain ⟨view, stxos⟩ := t
  obtain ⟨stxo, stxos, rfl, hrecord, hjournal⟩ : ∃ stxo rest, stxos = stxo :: rest ∧
      Records env db txs stxo txIn ∧ Forall₂ (Records env db txs) rest left := by
    cases h.journal with
    | cons hrecord hjournal => exact ⟨_, _, rfl, hrecord, hjournal⟩
  simp only [Blockchain.unspendInput, bind_eq_ok, rejectIf_eq_ok, exists_const, pure_eq_ok,
    not_and] at ht
  obtain ⟨hfull, rfl⟩ := ht
  unfold unspentEntry
  obtain ⟨base, hbase⟩ : ∃ base, base = (view.lookupEntry txIn.previousOutPoint.hash).getD
      (revivedEntry tx.version stxo (if stxo.txType = .sStx then stxo.stakeExtra else [])) :=
        ⟨_, rfl⟩
  -- the entry that is there, or the one that the journal describes
  have hentry : txIn.previousOutPoint.hash ∉ txs.map env.txHash →
      Restores env db txs txIn.previousOutPoint.hash base := by
    intro hhash
    cases hlookup : view.lookupEntry txIn.previousOutPoint.hash with
    | none =>
      rw [hlookup, getD_none] at hbase
      obtain ⟨shown, hshown, -, htype⟩ := hrecord
      have hspent : stxo.txFullySpent = true := by
        rw [hlookup] at hfull
        simpa using hfull rfl
      refine ⟨shown, hshown, by rw [hbase]; exact htype hspent, fun i output hi => ?_⟩
      simp [hbase, revivedEntry] at hi
    | some entry =>
      rw [hlookup, getD_some] at hbase
      exact hbase ▸ h.restores _ entry hhash (entryOf_of_lookupEntry hlookup)
  dsimp only
  rw [← hbase]
  refine ⟨hjournal, fun hash entry hhash he => ?_, fun txIn' hmem hhash => ?_, fun tx' htx' => ?_⟩
  · dsimp only at he
    rw [entryOf_setEntry] at he
    split_ifs at he with heq
    · cases he
      subst heq
      exact (hentry hhash).restoreOutput hrecord
    · exact h.restores hash entry hhash he
  · dsimp only
    rw [lookupEntry_setEntry]
    rcases mem_cons.1 hmem with rfl | hmem
    · exact ⟨_, _, if_pos rfl, (getElem?_restoreOutput _ _ _ _).trans (if_pos rfl)⟩
    · obtain ⟨entry, output, hlookup, hout⟩ := h.undone txIn' hmem hhash
      by_cases heq : txIn.previousOutPoint.hash = txIn'.previousOutPoint.hash
      · -- an output that was restored before is still there
        rw [heq, hlookup, getD_some] at hbase
        refine ⟨_, if txIn.previousOutPoint.index = txIn'.previousOutPoint.index then
          { output with spent := false } else output, if_pos heq, ?_⟩
        rw [getElem?_restoreOutput, hbase, hout]
        split_ifs <;> rfl
      · exact ⟨entry, output, (if_neg heq).trans hlookup, hout⟩
  · obtain ⟨entry, hlookup, hempty⟩ := h.cleared tx' htx'
    refine ⟨entry, ?_, hempty⟩
    rw [lookupEntry_setEntry, if_neg (hother tx' htx')]
    exact hlookup

theorem Disconnects.unspendInputs (h : Disconnects env db db' txs t (inputs ++ left) undone cleared)
    (hother : ∀ txIn ∈ inputs, ∀ tx ∈ cleared, txIn.previousOutPoint.hash ≠ env.txHash tx)
    (ht : inputs.foldlM (Blockchain.unspendInput tx) t = .ok t') :
    Disconnects env db db' txs t' left (inputs.reverse ++ undone) cleared := by
  induction inputs generalizing t undone with
  | nil =>
    rw [foldlM_nil_eq_ok] at ht
    exact ht ▸ h
  | cons txIn inputs ih =>
    obtain ⟨t1, ht1, ht⟩ := foldlM_cons_eq_ok.1 ht
    rw [reverse_cons, append_assoc]
    exact ih (h.unspendInput (hother txIn mem_cons_self) ht1)
      (fun txIn' hmem => hother txIn' (mem_cons_of_mem _ hmem)) ht

section

variable (h : Disconnects env db db' txs t left undone cleared)

include h

/-- An entry of the block is replaced. -/
theorem Disconnects.setEntry {hash : Hash}
    (hhash : hash ∈ txs.map env.txHash) (hother : ∀ tx ∈ cleared, hash ≠ env.txHash tx)
    (entry : UtxoEntry) :
    Disconnects env db db' txs { t with view := t.view.setEntry hash entry } left undone
      cleared := by
  refine ⟨h.journal, fun hash' entry' hhash' he => ?_, fun txIn hmem hin => ?_, fun tx htx => ?_⟩
  · dsimp only at he
    have hne : hash ≠ hash' := fun heq => hhash' (heq ▸ hhash)
    rw [entryOf_setEntry, if_neg hne] at he
    exact h.restores hash' entry' hhash' he
  · have hne : hash ≠ txIn.previousOutPoint.hash := fun heq => hin (heq ▸ hhash)
    rw [lookupEntry_setEntry, if_neg hne]
    exact h.undone txIn hmem hin
  · dsimp only
    rw [lookupEntry_setEntry, if_neg (hother tx htx)]
    exact h.cleared tx htx

/-- The outputs of a transaction are taken away. -/
theorem Disconnects.clearTx
    (hmem : tx ∈ txs) (hother : ∀ tx' ∈ cleared, env.txHash tx ≠ env.txHash tx')
    (blank : UtxoEntry) :
    Disconnects env db db' txs { t with view := Blockchain.clearTx env t.view tx blank } left undone
      (tx :: cleared) := by
  have hset := h.setEntry (mem_map_of_mem hmem) hother
    { (t.view.lookupEntry (env.txHash tx)).getD blank with modified := true, sparseOutputs := ∅ }
  refine { hset with cleared := fun tx' htx' => ?_ }
  rcases mem_cons.1 htx' with rfl | htx'
  · dsimp only [Blockchain.clearTx]
    rw [lookupEntry_setEntry, if_pos rfl]
    exact ⟨_, rfl, rfl⟩
  · exact hset.cleared tx' htx'

/-- A transaction comes before another one: they differ, and it does not spend from the other. -/
def Precedes (env : Env) (tx later : MsgTx) : Prop :=
  env.txHash tx ≠ env.txHash later ∧ ∀ txIn ∈ spentInputs env tx, txIn.previousOutPoint.hash ≠
    env.txHash later

omit h in
/-- Transactions are taken back from the last one on: the entry of each is emptied, and what it
spent is restored from its last input to its first. -/
theorem Disconnects.foldlM {f : Connecting → MsgTx × ℕ → Except Err Connecting}
    {l : List (MsgTx × ℕ)} (blank : MsgTx × ℕ → UtxoEntry)
    (hf : ∀ p ∈ l, ∀ t, f t p = (spentInputs env p.1).reverse.foldlM (Blockchain.unspendInput p.1)
      { t with view := Blockchain.clearTx env t.view p.1 (blank p) })
    (hmem : ∀ p ∈ l, p.1 ∈ txs) (horder : (l.map Prod.fst ++ cleared).Pairwise (Precedes env))
    (hown : ∀ p ∈ l, ∀ txIn ∈ spentInputs env p.1, txIn.previousOutPoint.hash ≠ env.txHash p.1)
    (h : Disconnects env db db' txs t
      (((l.map Prod.fst).flatMap (spentInputs env)).reverse ++ left) undone
      cleared) (ht : l.reverse.foldlM f t = .ok t') :
    Disconnects env db db' txs t' left ((l.map Prod.fst).flatMap (spentInputs env) ++ undone)
      (l.map Prod.fst ++ cleared) := by
  induction l using reverseRecOn generalizing t undone cleared with
  | nil =>
    rw [reverse_nil, foldlM_nil_eq_ok] at ht
    exact ht ▸ h
  | append_singleton l p ih =>
    rw [reverse_append, reverse_singleton, singleton_append] at ht
    obtain ⟨t1, ht1, ht⟩ := foldlM_cons_eq_ok.1 ht
    have hpmem : p ∈ l ++ [p] := mem_append_right _ (mem_singleton_self p)
    rw [hf p hpmem] at ht1
    simp only [map_append, map_singleton, flatMap_append, flatMap_singleton,
      reverse_append, append_assoc, singleton_append] at h horder ⊢
    have hafter := (pairwise_cons.1 (pairwise_append.1 horder).2.1).1
    have hclear := h.clearTx (hmem p hpmem) (fun tx' htx' => (hafter tx' htx').1) (blank p)
    have hp := hclear.unspendInputs (fun txIn hin tx' htx' => by
        rw [mem_reverse] at hin
        rcases mem_cons.1 htx' with rfl | htx'
        · exact hown p hpmem txIn hin
        · exact (hafter tx' htx').2 txIn hin) ht1
    rw [reverse_reverse] at hp
    exact ih (fun q hq => hf q (mem_append_left _ hq)) (fun q hq => hmem q (mem_append_left _ hq))
      horder (fun q hq => hown q (mem_append_left _ hq)) hp ht

theorem Disconnects.fetchUtxosMain (txSet : List Hash) :
    Disconnects env db db' txs { t with view := Blockchain.fetchUtxosMain db' t.view txSet }
      left undone cleared := by
  refine ⟨h.journal, fun hash entry hhash he => ?_, fun txIn hmem hin => ?_, fun tx htx => ?_⟩
  · rw [entryOf_fetchUtxosMain] at he
    exact h.restores hash entry hhash he
  · obtain ⟨entry, output, hlookup, hout⟩ := h.undone txIn hmem hin
    exact ⟨entry, output, lookupEntry_fetchUtxosMain hlookup, hout⟩
  · obtain ⟨entry, hlookup, hempty⟩ := h.cleared tx htx
    exact ⟨entry, lookupEntry_fetchUtxosMain hlookup, hempty⟩

/-- Loading inputs writes at hashes of transactions that came with the block, as long as none of
these has been cleared. -/
theorem Disconnects.fetchFor {viewpoint : StakeViewpoint}
    (hfetch : fetchFor env db' t viewpoint block parent = .ok t')
    (hsub : ∀ tx ∈ treeInFlight viewpoint block parent, tx ∈ txs ∧ ∀ tx' ∈ cleared,
      env.txHash tx ≠ env.txHash tx') :
    Disconnects env db db' txs t' left undone cleared := by
  obtain ⟨hview, hstxos⟩ := FetchRule.fetchFor
    (P := fun view => Disconnects env db db' txs { t with view := view } left undone cleared)
    ⟨fun _ _ hview => { hview with },
      fun _ tx htx height i hview =>
        hview.setEntry (mem_map_of_mem (hsub tx htx).1) (hsub tx htx).2 _,
      fun _ txSet hview => hview.fetchUtxosMain txSet⟩ hfetch h
  obtain ⟨view, stxos⟩ := t'
  obtain rfl := hstxos
  exact hview

end

variable (env db block parent) in
/-- The view of a block that is disconnected: `SetStakeViewpoint`, `fetchInputUtxos` and
`disconnectTransactions` on a new view. -/
def disconnectView (stxos : List SpentTxOut) : Except Err Connecting := do
  let c ← fetchFor env db ⟨⟨∅, env.blockHash block.header, .prevRegular⟩, stxos⟩ .prevRegular
    block parent
  disconnectTransactions env db c block parent

theorem Records.of_putSpentTxOut_eq {stxo stxo' : SpentTxOut}
    (heq : putSpentTxOut stxo' = putSpentTxOut stxo) (h : Records env db txs stxo txIn) :
    Records env db txs stxo' txIn := by
  obtain ⟨shown, hshown, hscript, htype⟩ := h
  have hversion : stxo'.scriptVersion = stxo.scriptVersion :=
    congrArg JournalRecord.scriptVersion heq
  have hpkScript : stxo'.pkScript = stxo.pkScript := congrArg JournalRecord.pkScript heq
  have hspent : (putSpentTxOut stxo').spentTx = (putSpentTxOut stxo).spentTx :=
    congrArg JournalRecord.spentTx heq
  refine ⟨shown, hshown, by rw [hscript, hversion, hpkScript], fun hfull => ?_⟩
  cases hfull' : stxo.txFullySpent with
  | false => simp [putSpentTxOut, hfull, hfull'] at hspent
  | true =>
    simp only [putSpentTxOut, if_pos hfull, if_pos hfull'] at hspent
    have htypes : stxo'.txType = stxo.txType := congrArg SpentTx.txType (Option.some.inj hspent)
    exact htypes.trans (htype hfull')

/-- What is journalled is read from its bytes. -/
theorem records_of_serialize_eq {stxos stxos' : List SpentTxOut}
    (heq : serializeSpendJournalEntry stxos' = serializeSpendJournalEntry stxos)
    (h : Forall₂ (Records env db txs) stxos inputs) :
    Forall₂ (Records env db txs) stxos' inputs := by
  induction h generalizing stxos' with
  | nil =>
    rw [map_eq_nil_iff.1 heq]
    exact .nil
  | cons hrecord _ ih =>
    obtain ⟨stxo', rest, rfl, hput, hrest⟩ := map_eq_cons_iff.1 heq
    exact .cons (hrecord.of_putSpentTxOut_eq hput) (ih hrest)

theorem SaneBlock.disconnectRegularTx_eq (h : SaneBlock env parent) :
    ∀ p ∈ parent.transactions.zipIdx, ∀ t, disconnectRegularTx env parent t p.1 p.2 =
      (spentInputs env p.1).reverse.foldlM (Blockchain.unspendInput p.1) { t with
        view := Blockchain.clearTx env t.view p.1 (newRegularEntry p.1 parent.header.height p.2
          (decide (p.2 < coinbases env parent.header))) } := by
  intro p hp t
  have hrestored := h.restoredInputs_eq_spentInputs p hp
  have hplace : (p.2 = 0 ∨ p.2 = 1 ∧ isKeyBlock env parent.header = true) ↔
      p.2 < coinbases env parent.header := by
    unfold coinbases
    cases isKeyBlock env parent.header with
    | true => simp only [and_true, if_true]; omega
    | false => simp
  unfold restoredInputs at hrestored
  unfold disconnectRegularTx
  by_cases hcb : p.2 < coinbases env parent.header
  · rw [if_pos (hplace.2 hcb)] at hrestored
    simp only [hcb, decide_true, if_true, ← hrestored, reverse_nil, foldlM_nil]
  · rw [if_neg fun hn => hcb (hplace.1 hn)] at hrestored
    simp only [hcb, decide_false, Bool.false_eq_true, if_false, hrestored]

/-- After disconnecting, the view shows the outputs of the database that the block had spent, and no
output of the transactions that it had applied. -/
theorem view_disconnectTransactions (h : FreshTxs env db block parent) (hdb : StoredSet db)
    {c d : Connecting} {stxos : List SpentTxOut} (hc : connectView env db block parent = .ok c)
    (hstxos : serializeSpendJournalEntry stxos = serializeSpendJournalEntry c.stxos)
    (hd : disconnectView env (dbPutUtxoView db c.view) block parent stxos = .ok d) :
    Disconnects env db (dbPutUtxoView db c.view) (comingTxs block parent) d []
      ((appliedTxs env block parent).flatMap (spentInputs env)) (appliedTxs env block parent) := by
  have hconnects := view_connectTransactions h hc
  have horder : (appliedTxs env block parent).Pairwise (Precedes env) := by
    have hne : (appliedTxs env block parent).Pairwise fun tx later =>
        env.txHash tx ≠ env.txHash later := by
      have hsublist : (appliedTxs env block parent).Sublist (comingTxs block parent) := by
        refine Sublist.append ?_ (Sublist.refl _)
        split_ifs
        · exact Sublist.refl _
        · exact nil_sublist _
      exact pairwise_map.1 ((hsublist.map env.txHash).nodup h.nodup)
    exact hne.and h.inOrder
  have hstart : Disconnects env db (dbPutUtxoView db c.view) (comingTxs block parent)
      ⟨⟨∅, env.blockHash block.header, .prevRegular⟩, stxos⟩
      ((appliedTxs env block parent).flatMap (spentInputs env)).reverse [] [] := by
    refine ⟨?_, fun hash entry _ he => ?_, fun _ hmem => absurd hmem not_mem_nil,
      fun _ hmem => absurd hmem not_mem_nil⟩
    · -- the journal that is read back has the records that were written
      exact records_of_serialize_eq hstxos hconnects.journal
    · have hstored : (dbPutUtxoView db c.view)[hash]? = some entry := by simpa [entryOf] using he
      rw [getElem?_dbPutUtxoView hconnects.loaded hdb, entryAt] at hstored
      obtain ⟨unmarked, hunmarked, hsettle⟩ := bind_eq_some_iff.1 hstored
      obtain ⟨base, hbase, rfl⟩ := map_eq_some_iff.1 hunmarked
      unfold settle at hsettle
      split_ifs at hsettle
      cases hsettle
      refine ⟨base.shown, hconnects.shows hash base hbase, rfl, fun i output hi => ?_⟩
      have hout : base.sparseOutputs[i]? = some output := by
        simp only [stored, unmarked, Std.ExtTreeMap.getElem?_filter] at hi
        exact (pfilter_eq_some_iff.1 hi).1
      simp only [shown, scriptAt_eq, hout]
      rfl
  have hparent : ∀ tx ∈ parent.transactions, tx ∈ comingTxs block parent ∧
      ∀ tx' ∈ block.sTransactions, env.txHash tx ≠ env.txHash tx' := by
    intro tx htx
    refine ⟨mem_append_left _ htx, fun tx' htx' heq => ?_⟩
    have hnodup := h.nodup
    rw [comingTxs, map_append, nodup_append] at hnodup
    exact hnodup.2.2 _ (mem_map_of_mem htx) _ (mem_map_of_mem htx') heq
  obtain ⟨d₀, hfetch, hd⟩ := bind_eq_ok.1 hd
  unfold disconnectTransactions at hd
  simp only [bind_eq_ok, rejectIf_eq_ok, exists_const, pure_eq_ok] at hd
  obtain ⟨-, d1, hfetch', d2, hstakes, d3, hprev, rfl⟩ := hd
  have h0 := hstart.fetchFor hfetch fun tx htx =>
    ⟨(hparent tx htx).1, fun _ hmem => absurd hmem not_mem_nil⟩
  have h1 := h0.fetchFor hfetch' fun tx htx => absurd htx not_mem_nil
  -- the stake transactions of the block, from the last one on
  have hstakeOrder := (pairwise_append.1 horder).2.1
  have hmemStake : ∀ p ∈ block.sTransactions.zipIdx, p.1 ∈ block.sTransactions := fun p hp =>
    fst_mem_of_mem_zipIdx hp
  have hcoming : ∀ p ∈ block.sTransactions.zipIdx, p.1 ∈ comingTxs block parent := fun p hp =>
    mem_append_right _ (hmemStake p hp)
  rw [appliedTxs, flatMap_append, reverse_append, ← zipIdx_map_fst 0 block.sTransactions] at h1
  have h2 := h1.foldlM (f := fun c p => disconnectStakeTx env block.header.height c p.1 p.2)
    (fun p => newTxEntry env p.1 block.header.height p.2) (fun p hp t => by
      rw [spentInputs, h.stake p.1 (hmemStake p hp)]
      rfl)
    hcoming
    (by
      rw [zipIdx_map_fst, append_nil]
      exact hstakeOrder)
    (fun p hp => h.notOwn p.1 (mem_append_right _ (hmemStake p hp))) hstakes
  rw [zipIdx_map_fst, append_nil, append_nil] at h2
  unfold disconnectPrevRegular at hprev
  by_cases hvalid : block.header.height ≠ 0 ∧ regularTxTreeValid env block parent = true
  · rw [if_pos hvalid] at hprev h2
    obtain ⟨d4, hfetch'', hprev⟩ := bind_eq_ok.1 hprev
    have h4 := h2.fetchFor hfetch'' hparent
    have hmemParent : ∀ p ∈ parent.transactions.zipIdx, p.1 ∈ parent.transactions := fun p hp =>
      fst_mem_of_mem_zipIdx hp
    have happlied : appliedTxs env block parent = parent.transactions ++ block.sTransactions := by
      rw [appliedTxs, if_pos hvalid]
    rw [happlied] at horder ⊢
    rw [← zipIdx_map_fst 0 parent.transactions,
      ← append_nil
        ((parent.transactions.zipIdx.map Prod.fst).flatMap (spentInputs env)).reverse] at h4
    have h3 := h4.foldlM (f := fun c p => disconnectRegularTx env parent c p.1 p.2)
      _ h.sane.disconnectRegularTx_eq (fun p hp => (hparent p.1 (hmemParent p hp)).1)
      (by
        rw [zipIdx_map_fst]
        exact horder)
      (fun p hp => h.notOwn p.1 (by rw [happlied]; exact mem_append_left _ (hmemParent p hp))) hprev
    rw [zipIdx_map_fst] at h3
    rw [flatMap_append]
    exact { h3 with }
  · rw [if_neg hvalid, pure_eq_ok] at hprev
    subst hprev
    rw [if_neg hvalid] at h2
    have happlied : appliedTxs env block parent = block.sTransactions := by
      rw [appliedTxs, if_neg hvalid, nil_append]
    rw [happlied]
    exact { h2 with }

end Disconnect

end Hcashd.Blockchain
