import Hcashd.Blockchain.Entries
import Hcashd.Blockchain.JournalCount
import Hcashd.Lib.UndoLog

/-!
# The regular transactions of the tip

`checkConnectBlock` connects the regular transactions of a block to check them, and takes them back
with `disconnectTransactionSlice` before the view is written: they become part of the chain with the
child of the block. `takenBack_iff` says when nothing of them is left. At all other hashes the
rollback is exact, since it goes through the transactions and their inputs in the reverse order of
the spends (`foldlM_undo`); it only changes which entries are marked as modified.
-/

namespace Hcashd.Blockchain

open Lib Stake List Option

section Spec

variable (env : Env)

/-- What is left of the regular transactions of a block between two points of `checkConnectBlock`,
before they are connected and after they are taken back: none of their outputs, the outputs that
they spent, and no entry of the journal. An output of a transaction of the block that another one
spends is not to be there again. -/
structure TakenBack (db : UtxoSet) (block : MsgBlock) (before after : Connecting) : Prop where
  created : ∀ tx ∈ block.transactions, ∀ o, createdAt env tx o ≠ none →
    unspentAt db after.view o = none
  spent : ∀ tx ∈ block.transactions, ∀ o ∈ spentPlaces env tx,
    o.1 ∉ block.transactions.map env.txHash →
      ∃ output, unspentAt db before.view o = some output ∧ unspentAt db after.view o = some output
  others : ∀ hash, hash ∉ block.transactions.map env.txHash →
    (entryOf db after.view hash).map UtxoEntry.unmarked =
      (entryOf db before.view hash).map UtxoEntry.unmarked
  stxos : after.stxos = before.stxos

/-- No transaction of a tree spends an output that it or a transaction after it creates. -/
def NoEarlySpends (txs : List MsgTx) : Prop :=
  txs.Pairwise (fun tx later => ∀ o ∈ spentPlaces env tx, createdAt env later o = none) ∧
    ∀ tx ∈ txs, ∀ o ∈ spentPlaces env tx, createdAt env tx o = none

instance (txs : List MsgTx) : Decidable (NoEarlySpends env txs) :=
  inferInstanceAs (Decidable (_ ∧ _))

/-- The blocks that are taken back: the regular transactions spend in order, and the journal has an
entry when the rollback starts, or the transactions have created nothing. -/
structure CanTakeBack (block parent : MsgBlock) : Prop where
  inOrder : NoEarlySpends env block.transactions
  journal : journalled env block parent + spentIn env block.transactions = 0 →
    ∀ tx ∈ block.transactions, ∀ o, createdAt env tx o = none

end Spec

variable {env : Env} {db : UtxoSet} {ctx : TreeContext} {s s' : TreeState}

/-! ## Away from the hashes of the tree -/

/-- Two states with the same journal and, away from some hashes, the same slots. -/
structure AlikeOutside (hashes : List Hash) (c c' : Connecting) : Prop where
  stxos : c.stxos = c'.stxos
  slots : ∀ hash, hash ∉ hashes → c.view.slot hash = c'.view.slot hash

section Alike

variable {hashes : List Hash} {tx : MsgTx} {c c' : Connecting}

/-- One input is spent and restored. -/
theorem AlikeOutside.unspend {s s1 t1 : Connecting} {txIn : TxIn} (hs : spendInput s txIn = .ok s1)
    (hunspent : txIn.previousOutPoint.hash ∉ hashes →
      ∃ output, unspentAt db s.view (placeOf txIn) = some output)
    (h : AlikeOutside hashes t1 s1) :
    ∃ t, unspendSliceInput env tx t1 txIn = .ok t ∧ AlikeOutside hashes t s := by
  unfold spendInput at hs
  split at hs
  · cases hs
  rename_i entry hentry
  cases hs
  obtain ⟨⟨view, stxos⟩, rfl⟩ : ∃ c : Connecting, c = t1 := ⟨t1, rfl⟩
  obtain rfl := h.stxos
  refine ⟨_, rfl, rfl, fun hash hhash => ?_⟩
  have hslot := h.slots hash hhash
  rw [slot_setEntry] at hslot ⊢
  by_cases heq : txIn.previousOutPoint.hash = hash
  · rw [if_pos heq] at hslot ⊢
    subst heq
    obtain ⟨output, houtput⟩ := hunspent hhash
    rw [unspentAt, placeOf, entryOf_of_lookupEntry hentry, bind_some] at houtput
    obtain ⟨spent, hspent, hmark⟩ := slot_eq_some.1 hslot
    rw [hspent, getD_some, unmarked_restoreOutput houtput hmark]
    exact (slot_eq_some.2 ⟨entry, hentry, rfl⟩).symm
  · rw [if_neg heq] at hslot ⊢
    exact hslot

/-- All inputs of a transaction are spent and restored. -/
theorem AlikeOutside.unspends {inputs : List TxIn} {s s' t' : Connecting}
    (hs : inputs.foldlM spendInput s = .ok s') (hnodup : (inputs.map placeOf).Nodup)
    (hunspent : ∀ txIn ∈ inputs, ∃ output, unspentAt db s.view (placeOf txIn) = some output)
    (h : AlikeOutside hashes t' s') :
    ∃ t, inputs.reverse.foldlM (unspendSliceInput env tx) t' = .ok t ∧ AlikeOutside hashes t s := by
  refine foldlM_undo (fun inputs s => (inputs.map placeOf).Nodup ∧
    ∀ txIn ∈ inputs, ∃ output, unspentAt db s.view (placeOf txIn) = some output)
    (AlikeOutside hashes) ?_ ⟨hnodup, hunspent⟩ hs h
  rintro txIn inputs s s1 ⟨hnodup, hunspent⟩ hs
  obtain ⟨hnew, hnodup⟩ := nodup_cons.1 hnodup
  refine ⟨⟨hnodup, fun txIn' hmem => ?_⟩, fun t1 h1 =>
    h1.unspend hs fun _ => hunspent txIn mem_cons_self⟩
  -- the inputs that are left have other places
  have hne : placeOf txIn ≠ placeOf txIn' := fun he => hnew (he ▸ mem_map_of_mem hmem)
  rw [(spendInput_spec hs).2.1, if_neg hne]
  exact hunspent txIn' (mem_cons_of_mem _ hmem)

theorem slot_setEntry_of_notMem {hash hash' : Hash} (hmem : hash ∈ hashes) (hhash : hash' ∉ hashes)
    (view : UtxoViewpoint) (entry : UtxoEntry) :
    (view.setEntry hash entry).slot hash' = view.slot hash' := by
  have hne : hash ≠ hash' := ne_of_mem_of_not_mem hmem hhash
  rw [slot_setEntry, if_neg hne]

theorem AlikeOutside.of_addTxOuts {height i : ℕ} (htx : env.txHash tx ∈ hashes)
    (h : AlikeOutside hashes c { c' with view := addTxOuts env c'.view tx height i }) :
    AlikeOutside hashes c c' :=
  ⟨h.stxos, fun hash hhash => (h.slots hash hhash).trans (slot_setEntry_of_notMem htx hhash _ _)⟩

theorem AlikeOutside.clearTx {blank : UtxoEntry} (htx : env.txHash tx ∈ hashes)
    (h : AlikeOutside hashes c c') :
    AlikeOutside hashes { c with view := clearTx env c.view tx blank } c' :=
  ⟨h.stxos, fun hash hhash => (slot_setEntry_of_notMem htx hhash _ _).trans (h.slots hash hhash)⟩

end Alike

/-- The inputs of a checked transaction are unspent and distinct. -/
theorem TreeStep.unspent {tx : MsgTx} {i : ℕ}
    (h : TreeStep env ctx s tx i s') (hsane : SaneTx env tx) (db : UtxoSet) :
    ((spentInputs env tx).map placeOf).Nodup ∧
      ∀ txIn ∈ spentInputs env tx, ∃ output, unspentAt db s.conn.view (placeOf txIn) =
        some output := by
  unfold spentInputs
  cases hcb : isCoinBaseTx tx with
  | true => simp
  | false =>
    obtain ⟨fees, hchecked, -⟩ := h.checkedTx hcb
    refine ⟨hchecked.nodup_places hsane.nodup, fun txIn hin => ?_⟩
    obtain ⟨output, houtput, -⟩ := (hchecked.inputs txIn hin).unspentAt db
    exact ⟨output, houtput⟩

/-- A tree is connected and rolled back. -/
theorem AlikeOutside.disconnectSlice {block : MsgBlock} {t' : Connecting} (height : ℕ)
    (hsane : SaneBlock env block)
    (hrun : block.transactions.zipIdx.foldlM (fun s (tx, i) => ctx.checkAndConnectTx env s tx i) s =
      .ok s')
    (h : AlikeOutside (block.transactions.map env.txHash) t' s'.conn) :
    ∃ t, block.transactions.zipIdx.reverse.foldlM (fun c (tx, i) =>
      disconnectSliceTx env height (isKeyBlock env block.header) c tx i) t' = .ok t ∧
      AlikeOutside (block.transactions.map env.txHash) t s.conn := by
  refine foldlM_undo (fun l _ => ∀ p ∈ l, p ∈ block.transactions.zipIdx)
    (fun (t : Connecting) (s : TreeState) =>
      AlikeOutside (block.transactions.map env.txHash) t s.conn)
    ?_ (fun _ hp => hp) hrun h
  rintro ⟨tx, i⟩ l s s1 hmem hs
  refine ⟨fun p hp => hmem p (mem_cons_of_mem _ hp), fun t1 h1 => ?_⟩
  have hp := hmem _ mem_cons_self
  have htx := fst_mem_of_mem_zipIdx hp
  have hstep := treeStep_of_checkAndConnectTx hs
  obtain ⟨hnodup, hunspent⟩ := hstep.unspent (hsane.regular tx htx).2 ∅
  obtain ⟨c1, hc1, hconnected⟩ := bind_eq_ok.1 hstep.connected
  rw [spendInputs_eq] at hc1
  rw [← pure_eq_ok.1 hconnected] at h1
  have htxHash := mem_map_of_mem (f := env.txHash) htx
  dsimp only
  rw [disconnectSliceTx_eq, hsane.restoredInputs_eq_spentInputs _ hp]
  exact ((h1.of_addTxOuts htxHash).clearTx htxHash).unspends hc1 hnodup hunspent

/-! ## At the hashes of the tree -/

/-- The view has an entry for each of the hashes. -/
def HasEntries (hashes : List Hash) (view : UtxoViewpoint) : Prop :=
  ∀ hash ∈ hashes, ∃ entry, view.lookupEntry hash = some entry

variable (env) in
/-- Whether a place is unspent after a tree was taken back, from whether it was before: the
transactions after one that spends it do not matter, and neither do those after the one whose output
it is. -/
def leftAt (o : Place) (txs : List MsgTx) (before : Bool) : Bool :=
  txs.foldr (fun tx left =>
    decide (o ∈ spentPlaces env tx) || (decide (env.txHash tx ≠ o.1) && left)) before

section Left

variable {hashes : List Hash} {o : Place} {tx : MsgTx} {c c' : Connecting} {secondCoinbase : Bool}
  {view : UtxoViewpoint}

theorem HasEntries.setEntry_cons (h : HasEntries hashes view) (hash : Hash)
    (entry : UtxoEntry) : HasEntries (hash :: hashes) (view.setEntry hash entry) := by
  intro hash' hmem
  rw [lookupEntry_setEntry]
  split_ifs with heq
  · exact ⟨entry, rfl⟩
  · exact h hash' ((mem_cons.1 hmem).resolve_left (Ne.symm heq))

/-- Setting an entry keeps the others. -/
theorem HasEntries.setEntry (h : HasEntries hashes view) (hash : Hash)
    (entry : UtxoEntry) : HasEntries hashes (view.setEntry hash entry) :=
  fun hash' hmem => h.setEntry_cons hash entry hash' (mem_cons_of_mem _ hmem)

theorem isSome_unspent_restoreOutput (entry : UtxoEntry) (txIn : TxIn) (stxo : SpentTxOut) (i : ℕ) :
    ((restoreOutput entry txIn stxo).unspent i).isSome =
      (decide (txIn.previousOutPoint.index = i) || (entry.unspent i).isSome) := by
  unfold restoreOutput UtxoEntry.unspent
  rw [Std.ExtTreeMap.getElem?_insert]
  by_cases hi : txIn.previousOutPoint.index = i
  · rw [if_pos (by simpa using hi), decide_eq_true hi]
    split <;> rfl
  · rw [if_neg (by simpa using hi), decide_eq_false hi, Bool.false_or]

/-- What one restored input leaves unspent. -/
theorem isSome_unspentAt_unspendSliceInput (db : UtxoSet) {txIn : TxIn}
    (h : unspendSliceInput env tx c txIn = .ok c') (hc : HasEntries hashes c.view)
    (ho : o.1 ∈ hashes) :
    HasEntries hashes c'.view ∧ (unspentAt db c'.view o).isSome =
      (decide (o = placeOf txIn) || (unspentAt db c.view o).isSome) := by
  unfold unspendSliceInput at h
  split at h
  · cases h
  cases h
  refine ⟨hc.setEntry _ _, ?_⟩
  rw [unspentAt_setEntry]
  by_cases hhash : txIn.previousOutPoint.hash = o.1
  · obtain ⟨entry, hentry⟩ := hc o.1 ho
    rw [if_pos hhash, hhash, hentry, getD_some, isSome_unspent_restoreOutput, unspentAt,
      entryOf_of_lookupEntry hentry, bind_some]
    simp [placeOf, Prod.ext_iff, hhash, eq_comm]
  · have hne : o ≠ placeOf txIn := fun he => hhash (he ▸ rfl)
    rw [if_neg hhash, decide_eq_false hne, Bool.false_or]

theorem isSome_unspentAt_unspendSliceInputs (db : UtxoSet) {inputs : List TxIn}
    (h : inputs.foldlM (unspendSliceInput env tx) c = .ok c') (hc : HasEntries hashes c.view)
    (ho : o.1 ∈ hashes) : HasEntries hashes c'.view ∧ (unspentAt db c'.view o).isSome =
      (decide (o ∈ inputs.map placeOf) || (unspentAt db c.view o).isSome) := by
  induction inputs generalizing c with
  | nil =>
    obtain rfl := foldlM_nil_eq_ok.1 h
    simp [hc]
  | cons txIn inputs ih =>
    obtain ⟨c1, h1, h⟩ := foldlM_cons_eq_ok.1 h
    obtain ⟨hc1, hsome1⟩ := isSome_unspentAt_unspendSliceInput db h1 hc ho
    obtain ⟨hc', hsome⟩ := ih h hc1
    refine ⟨hc', ?_⟩
    rw [hsome, hsome1, map_cons, ← Bool.or_assoc]
    congr 1
    simp [Bool.or_comm]

variable {txs : List MsgTx}

/-- What a rolled back tree leaves unspent. -/
theorem isSome_unspentAt_disconnectSlice (db : UtxoSet) {k height : ℕ}
    (h : (txs.zipIdx k).reverse.foldlM (fun c (tx, i) =>
      disconnectSliceTx env height secondCoinbase c tx i) c = .ok c')
    (hinputs : ∀ p ∈ txs.zipIdx k, restoredInputs secondCoinbase p.1 p.2 = spentInputs env p.1)
    (hc : HasEntries hashes c.view) (ho : o.1 ∈ hashes) :
    HasEntries hashes c'.view ∧
    (unspentAt db c'.view o).isSome = leftAt env o txs (unspentAt db c.view o).isSome := by
  induction txs generalizing k c' with
  | nil =>
    rw [zipIdx_nil, reverse_nil, foldlM_nil_eq_ok] at h
    subst h
    exact ⟨hc, rfl⟩
  | cons tx txs ih =>
    rw [zipIdx_cons, reverse_cons, foldlM_append, bind_eq_ok] at h
    obtain ⟨c1, h1, h⟩ := h
    obtain ⟨c2, h2, h⟩ := foldlM_cons_eq_ok.1 h
    obtain rfl := foldlM_nil_eq_ok.1 h
    obtain ⟨hc1, hsome1⟩ := ih h1 fun p hp => hinputs p (mem_cons_of_mem _ hp)
    dsimp only at h2
    rw [disconnectSliceTx_eq, hinputs (tx, k) mem_cons_self] at h2
    obtain ⟨hc2, hsome2⟩ := isSome_unspentAt_unspendSliceInputs db h2 (hc1.setEntry _ _) ho
    refine ⟨hc2, ?_⟩
    rw [hsome2, unspentAt_clearTx, map_reverse, map_placeOf_spentInputs]
    by_cases hhash : env.txHash tx = o.1 <;> simp [leftAt, hhash, hsome1]

theorem createdAt_hash (h : createdAt env tx o ≠ none) : env.txHash tx = o.1 := by
  by_contra hne
  exact h (if_neg hne)

theorem noEarlySpends_cons : NoEarlySpends env (tx :: txs) ↔
    (∀ o ∈ spentPlaces env tx, ∀ tx' ∈ tx :: txs, createdAt env tx' o = none) ∧
    NoEarlySpends env txs := by
  unfold NoEarlySpends
  rw [pairwise_cons]
  simp only [forall_mem_cons]
  constructor
  · rintro ⟨⟨hlater, hpair⟩, hself, hrest⟩
    exact ⟨fun o ho => ⟨hself o ho, fun tx' htx' => hlater tx' htx' o ho⟩, hpair, hrest⟩
  · rintro ⟨hhead, hpair, hrest⟩
    exact ⟨⟨fun tx' htx' o ho => (hhead o ho).2 tx' htx', hpair⟩, fun o ho => (hhead o ho).1, hrest⟩

/-- Nothing of the tree is left iff no input spends a later transaction. -/
theorem leftAt_eq_false_iff (hnodup : (txs.map env.txHash).Nodup) (before : Place → Bool) :
    (∀ tx ∈ txs, ∀ o, createdAt env tx o ≠ none → leftAt env o txs (before o) = false) ↔
    NoEarlySpends env txs := by
  induction txs with
  | nil => simp [NoEarlySpends]
  | cons tx txs ih =>
    obtain ⟨hnew, hnodup⟩ := nodup_cons.1 hnodup
    have hcons : ∀ o, leftAt env o (tx :: txs) (before o) =
        (decide (o ∈ spentPlaces env tx) ||
          (decide (env.txHash tx ≠ o.1) && leftAt env o txs (before o))) :=
      fun _ => rfl
    have hother : ∀ tx' ∈ txs, ∀ o, createdAt env tx' o ≠ none → env.txHash tx ≠ o.1 := by
      intro tx' htx' o ho he
      rw [← createdAt_hash ho] at he
      exact hnew (he ▸ mem_map_of_mem htx')
    rw [noEarlySpends_cons, ← ih hnodup]
    constructor
    · intro h
      refine ⟨fun o ho tx' htx' => ?_, fun tx' htx' o ho => ?_⟩
      · by_contra hcreated
        have hleft := h tx' htx' o hcreated
        simp [hcons, ho] at hleft
      · have hleft := h tx' (mem_cons_of_mem _ htx') o ho
        rw [hcons, Bool.or_eq_false_iff, decide_eq_true (hother tx' htx' o ho),
          Bool.true_and] at hleft
        exact hleft.2
    · rintro ⟨hhead, hrest⟩ tx' htx' o ho
      have hspent : o ∉ spentPlaces env tx := fun hmem => ho (hhead o hmem tx' htx')
      rw [hcons, decide_eq_false hspent, Bool.false_or]
      obtain rfl | htx' := mem_cons.1 htx'
      · rw [decide_eq_false (not_not.2 (createdAt_hash ho)), Bool.false_and]
      · rw [hrest tx' htx' o ho, Bool.and_false]

end Left

/-! ## The run over the tree -/

section Run

variable {c c' : Connecting} {tx : MsgTx} {height i : ℕ} {hashes : List Hash} {o : Place}

/-- Spending keeps the entries. -/
theorem HasEntries.spendInput {txIn : TxIn} (hc : HasEntries hashes c.view)
    (h : spendInput c txIn = .ok c') : HasEntries hashes c'.view := by
  unfold Blockchain.spendInput at h
  split at h
  · cases h
  · cases h
    exact hc.setEntry _ _

/-- A connected transaction has an entry. -/
theorem HasEntries.connectTransaction (hc : HasEntries hashes c.view)
    (h : connectTransaction env c tx height i = .ok c') :
    HasEntries (env.txHash tx :: hashes) c'.view := by
  obtain ⟨c1, h1, h⟩ := bind_eq_ok.1 h
  obtain rfl := pure_eq_ok.1 h
  rw [spendInputs_eq] at h1
  have hc1 : HasEntries hashes c1.view :=
    foldlM_invariant (fun c : Connecting => HasEntries hashes c.view)
    (fun _ _ _ _ hs hstep => hs.spendInput hstep) hc h1
  exact hc1.setEntry_cons _ _

variable {ctx : TreeContext} {txs : List MsgTx} {k : ℕ} {s s' : TreeState}

theorem hasEntries_of_checkAndConnect (hs : HasEntries hashes s.conn.view)
    (hrun : TreeRun env ctx k txs s s') :
    HasEntries (hashes ++ txs.map env.txHash) s'.conn.view := by
  induction hrun generalizing hashes with
  | nil => simpa using hs
  | cons hstep _ ih =>
    have hall := ih (hs.connectTransaction hstep.connected)
    intro hash hmem
    apply hall hash
    simp only [map_cons, mem_append, mem_cons] at hmem ⊢
    tauto

theorem unspentAt_of_checkAndConnect (hnodup : (txs.map env.txHash).Nodup)
    (hspent : ∀ tx ∈ txs, spentPlaces env tx = []) (hrun : TreeRun env ctx k txs s s')
    (ho : (∃ tx ∈ txs, createdAt env tx o ≠ none) ∨
      (o.1 ∉ txs.map env.txHash ∧ unspentAt db s.conn.view o ≠ none)) :
        unspentAt db s'.conn.view o ≠ none := by
  induction hrun with
  | nil => simpa using ho
  | @cons k tx txs s s1 s' hstep _ ih =>
    obtain ⟨hnew, hnodup⟩ := nodup_cons.1 hnodup
    have hconnected := hstep.connected
    refine ih hnodup (fun tx' htx' => hspent tx' (mem_cons_of_mem _ htx')) ?_
    obtain ⟨tx', htx', hcreated⟩ | ⟨hhash, hunspent⟩ := ho
    · obtain rfl | htx' := mem_cons.1 htx'
      · obtain ⟨output, houtput⟩ := ne_none_iff_exists'.1 hcreated
        refine .inr ⟨createdAt_hash hcreated ▸ hnew, ?_⟩
        obtain ⟨c1, -, hadded⟩ := bind_eq_ok.1 hconnected
        rw [← pure_eq_ok.1 hadded, unspentAt_addTxOuts, houtput]
        exact some_ne_none output
      · exact .inl ⟨tx', htx', hcreated⟩
    · rw [map_cons, mem_cons, not_or] at hhash
      refine .inr ⟨hhash.2, ?_⟩
      obtain ⟨c1, h1, hadded⟩ := bind_eq_ok.1 hconnected
      rw [← pure_eq_ok.1 hadded, unspentAt_addTxOuts, createdAt, if_neg (Ne.symm hhash.1), none_or,
        if_neg fun hn => Ne.symm hhash.1 hn.1, (spendInputs_spec env h1).1, hspent tx mem_cons_self,
        if_neg not_mem_nil]
      exact hunspent

/-- What a tree spends from outside was unspent before. -/
theorem unspentAt_of_mem_spentPlaces (db : UtxoSet) (hsub : ∀ tx ∈ txs, env.txHash tx ∈ hashes)
    (hrun : TreeRun env ctx k txs s s') :
    ∀ tx ∈ txs, ∀ o ∈ spentPlaces env tx, o.1 ∉ hashes →
    ∃ output, unspentAt db s.conn.view o = some output := by
  induction hrun with
  | nil => simp
  | @cons k tx txs s s1 s' hstep _ ih =>
    intro tx' htx' o ho hhash
    obtain rfl | htx' := mem_cons.1 htx'
    · obtain ⟨txIn, -, rfl, hin⟩ := hstep.checkedInput_of_mem ho
      obtain ⟨output, houtput, -⟩ := hin.unspentAt db
      exact ⟨output, houtput⟩
    · obtain ⟨output, houtput⟩ :=
        ih (fun tx1 h1 => hsub tx1 (mem_cons_of_mem _ h1)) tx' htx' o ho hhash
      refine ⟨output, ?_⟩
      obtain hcreated | ⟨-, -, hunspent⟩ := unspentAt_connectTransaction env hstep.connected houtput
      · refine absurd (hsub tx mem_cons_self) ?_
        rwa [createdAt_hash (hcreated ▸ some_ne_none output)]
      · exact hunspent

theorem alikeOutside_of_checkAndConnect (hsub : ∀ tx ∈ txs, env.txHash tx ∈ hashes)
    (hspent : ∀ tx ∈ txs, spentPlaces env tx = []) (hrun : TreeRun env ctx k txs s s') :
    AlikeOutside hashes s'.conn s.conn := by
  induction hrun with
  | nil => exact ⟨rfl, fun _ _ => rfl⟩
  | @cons k tx txs s s1 s' hstep _ ih =>
    obtain ⟨htx, hsub⟩ := forall_mem_cons.1 hsub
    obtain ⟨hnone, hspent⟩ := forall_mem_cons.1 hspent
    have halike := ih hsub hspent
    obtain ⟨c1, hc1, hc2⟩ := bind_eq_ok.1 hstep.connected
    have hinputs : spentInputs env tx = [] := by
      rw [← map_eq_nil_iff (f := placeOf), map_placeOf_spentInputs]
      exact hnone
    rw [spendInputs_eq, hinputs, foldlM_nil_eq_ok] at hc1
    subst hc1
    rw [← pure_eq_ok.1 hc2] at halike
    exact halike.of_addTxOuts htx

/-- A tree that spends nothing. -/
theorem spentIn_eq_zero : spentIn env txs = 0 ↔ ∀ tx ∈ txs, spentPlaces env tx = [] := by
  simp [spentIn, sum_eq_zero_iff]

end Run

/-! ## The rollback of `checkConnectBlock` -/

section Block

variable {prev : ChainBlock} {below : Chain} {block : MsgBlock} {after : Connecting}

section Steps

variable (h : CheckSteps env db prev below block after)

theorem CheckSteps.entryOf_fetched {hash : Hash}
    (hhash : hash ∉ block.transactions.map env.txHash) :
    entryOf db h.fetched.view hash = entryOf db h.stakeState.conn.view hash := by
  refine (FetchRule.fetchTree
    (P := fun view => entryOf db view hash = entryOf db h.stakeState.conn.view hash)
    ⟨fun _ _ hv => hv, fun view tx htx height i hv => ?_, fun view txSet hv =>
      ?_⟩ h.fetchRegular rfl).1
  · have hne : env.txHash tx ≠ hash := fun he => hhash (he ▸ mem_map_of_mem htx)
    rw [addTxOuts, entryOf_setEntry, if_neg hne]
    exact hv
  · rw [entryOf_fetchUtxosMain]
    exact hv

variable (hheight : 1 < block.header.height)
include h hheight

/-- The rollback is skipped without journal entries, and runs with them. -/
theorem CheckSteps.rollback_cases :
    (journalled env block prev.block + spentIn env block.transactions = 0 ∧ after = h.state.conn) ∨
    (journalled env block prev.block + spentIn env block.transactions ≠ 0 ∧
      block.transactions.zipIdx.reverse.foldlM (fun c (tx, i) =>
        disconnectSliceTx env block.header.height (isKeyBlock env block.header) c tx i)
          h.state.conn = .ok after) := by
  have hrollback := h.rollback
  rw [rollbackRegularTree,
    if_pos (show 1 < (newBlockNode env block).height from hheight)] at hrollback
  rw [← h.length_stxos_state hheight, Ne, length_eq_zero_iff]
  unfold disconnectTransactionSlice at hrollback
  by_cases hempty : h.state.conn.stxos = []
  · rw [if_pos (isEmpty_iff.2 hempty), pure_eq_ok] at hrollback
    exact .inl ⟨hempty, hrollback.symm⟩
  · rw [if_neg (by simpa using hempty)] at hrollback
    exact .inr ⟨hempty, hrollback⟩

/-- Outside of the block the view is as it was before it. -/
theorem CheckSteps.alikeOutside (hsane : SaneBlock env block) :
    AlikeOutside (block.transactions.map env.txHash) after h.fetched := by
  obtain ⟨hzero, hafter⟩ | ⟨-, hrun⟩ := h.rollback_cases hheight
  · have halike := alikeOutside_of_checkAndConnect (fun tx htx => mem_map_of_mem htx)
      (spentIn_eq_zero.1 (Nat.eq_zero_of_add_eq_zero_left hzero)) (treeRun_of_foldlM h.run)
    rwa [← hafter] at halike
  · obtain ⟨t, ht, halike⟩ :=
      AlikeOutside.disconnectSlice block.header.height hsane h.run ⟨rfl, fun _ _ => rfl⟩
    rw [hrun] at ht
    cases ht
    exact halike

/-- When the outputs of the block are gone from the view. -/
theorem CheckSteps.created_iff (hsane : SaneBlock env block)
    (hnodup : (block.transactions.map env.txHash).Nodup) :
    (∀ tx ∈ block.transactions, ∀ o, createdAt env tx o ≠ none → unspentAt db after.view o = none) ↔
      CanTakeBack env block prev.block := by
  obtain ⟨hzero, hafter⟩ | ⟨hne, hrun⟩ := h.rollback_cases hheight
  · -- the rollback does nothing, and everything that was created is still there
    have hspent := spentIn_eq_zero.1 (Nat.eq_zero_of_add_eq_zero_left hzero)
    constructor
    · intro hcreated
      refine ⟨⟨pairwise_of_forall_mem_list fun tx htx _ _ o ho => ?_, fun tx htx o ho => ?_⟩,
        fun _ tx htx o => ?_⟩
      · rw [hspent tx htx] at ho
        exact absurd ho not_mem_nil
      · rw [hspent tx htx] at ho
        exact absurd ho not_mem_nil
      · by_contra ho
        have hunspent := hcreated tx htx o ho
        rw [hafter] at hunspent
        exact unspentAt_of_checkAndConnect hnodup hspent (treeRun_of_foldlM h.run)
          (.inl ⟨tx, htx, ho⟩) hunspent
    · exact fun hcan tx htx o ho => absurd (hcan.journal hzero tx htx o) ho
  · have hentries : HasEntries (block.transactions.map env.txHash) h.state.conn.view := by
      have hnil : HasEntries [] h.fetched.view := fun _ hmem => absurd hmem not_mem_nil
      have hall := hasEntries_of_checkAndConnect hnil (treeRun_of_foldlM h.run)
      rwa [nil_append] at hall
    have hleft : ∀ tx ∈ block.transactions, ∀ o, createdAt env tx o ≠ none →
        (unspentAt db after.view o = none ↔
          leftAt env o block.transactions (unspentAt db h.state.conn.view o).isSome = false) := by
      intro tx htx o ho
      rw [← (isSome_unspentAt_disconnectSlice db hrun hsane.restoredInputs_eq_spentInputs hentries
        (createdAt_hash ho ▸ mem_map_of_mem htx)).2, isSome_eq_false_iff, isNone_iff_eq_none]
    have hiff := leftAt_eq_false_iff hnodup fun o => (unspentAt db h.state.conn.view o).isSome
    constructor
    · intro hcreated
      exact ⟨hiff.1 fun tx htx o ho => (hleft tx htx o ho).1 (hcreated tx htx o ho), fun hzero =>
        absurd hzero hne⟩
    · exact fun hcan tx htx o ho => (hleft tx htx o ho).2 (hiff.2 hcan.inOrder tx htx o ho)

end Steps

/-- After `checkConnectBlock` has accepted a block above height one, nothing of its regular
transactions is in the view exactly if they can be taken back. The journal, and everything at other
hashes, is as the parent's regular transactions and the block's stake transactions have left it in
any case. -/
theorem takenBack_iff {adjustedTime : ℤ}
    (hsane : checkBlockSanity env block adjustedTime false = .ok ⟨⟩)
    (hheight : 1 < block.header.height)
    (hcheck : checkConnectBlock env db prev below block = .ok after) :
    ∃ parent before fees, connectParentTree env db (newView block.header) block prev.block =
      .ok parent ∧
      connectStakeTree env db ⟨prev :: below, block, newBlockNode env block, false⟩
        prev.block parent = .ok (before, fees) ∧
      (TakenBack env db block before after ↔ CanTakeBack env block prev.block) := by
  obtain ⟨h, hstake⟩ := exists_checkSteps_of_checkConnectBlock hcheck
  refine ⟨h.parent, h.stakeState.conn, h.stakeFees, h.connectParent, hstake, ?_⟩
  have hnodup : (block.transactions.map env.txHash).Nodup := by
    obtain ⟨-, -, -, -, -, -, -, -, hnodup, -⟩ := checkBlockSanity_eq_ok.1 hsane
    rw [map_append] at hnodup
    exact hnodup.of_append_left
  have hsane := saneBlock_of_checkBlockSanity hsane
  have halike := h.alikeOutside hheight hsane
  have hothers : ∀ hash, hash ∉ block.transactions.map env.txHash →
      (entryOf db after.view hash).map UtxoEntry.unmarked =
        (entryOf db h.stakeState.conn.view hash).map UtxoEntry.unmarked := by
    intro hash hhash
    rw [entryOf_eq_of_slot_eq (halike.slots hash hhash), h.entryOf_fetched hhash]
  rw [← h.created_iff hheight hsane hnodup]
  refine ⟨TakenBack.created, fun hcreated => ⟨hcreated, fun tx htx o ho hhash => ?_, hothers, ?_⟩⟩
  · obtain ⟨output, houtput⟩ := unspentAt_of_mem_spentPlaces db
      (fun tx htx => mem_map_of_mem htx) (treeRun_of_foldlM h.run) tx htx o ho hhash
    have hbefore : unspentAt db h.stakeState.conn.view o = some output := by
      rw [← houtput, unspentAt, ← h.entryOf_fetched hhash]
      rfl
    exact ⟨output, hbefore, (unspentAt_eq_of_entryOf_eq (hothers o.1 hhash)).trans hbefore⟩
  · rw [halike.stxos, stxos_fetchTree h.fetchRegular]

end Block

/-- A block whose transactions are taken back. -/
theorem takenBack_feeBlock : ∃ st c,
    processBlocks (sampleEnv sampleParams) (fun _ _ => True) (genesisState (sampleEnv sampleParams))
      [(10, sampleBlockOne)] = .ok st ∧
    checkConnectBlock (sampleEnv sampleParams) st.utxos st.tip st.below feeBlock = .ok c ∧
    ∃ before, TakenBack (sampleEnv sampleParams) st.utxos feeBlock before c := by
  have hsane :
      checkBlockSanity (sampleEnv sampleParams) feeBlock 10 false = .ok ⟨⟩ := by decide +kernel
  refine ⟨_, _, eq_ok_valueOf (by decide +kernel), eq_ok_valueOf ?hc, ?_⟩
  · decide +kernel
  · obtain ⟨_, before, _, -, -, hiff⟩ := takenBack_iff hsane (by decide) (eq_ok_valueOf _)
    exact ⟨before, hiff.2 ⟨by decide +kernel, fun hzero => absurd hzero (by decide +kernel)⟩⟩

/-- A key block that spends nothing, on block one, which spends nothing either. -/
def idleBlock : MsgBlock := blockOf (sampleEnv sampleParams) (sampleHeader 2 1 2 1 1)
  [coinbaseTx 20 55 [payTo 9 0, payTo 2 0], coinbaseTx 21 0 [heightOut 2, payTo 2 45]] []

/-- A block is accepted whose coinbase is written to the database at once. -/
theorem exists_coinbase_not_takenBack :
    ∃ st st' c, Accepted (sampleEnv sampleParams) (fun _ _ => True) st ∧
    processBlock (sampleEnv sampleParams) st 10 idleBlock = .ok st' ∧ 1 < idleBlock.header.height ∧
    checkConnectBlock (sampleEnv sampleParams) st.utxos st.tip st.below idleBlock = .ok c ∧
    (∀ before, ¬ TakenBack (sampleEnv sampleParams) st.utxos idleBlock before c) ∧
    utxoAt st'.utxos (Hash.ofNat 21, 1) ≠ none := by
  refine ⟨_, _, _, accepted_valueOf _ [(10, sampleBlockOne)] (by decide +kernel),
    eq_ok_valueOf (by decide +kernel),
    by decide, eq_ok_valueOf (by decide +kernel), fun before h => ?_, by decide +kernel⟩
  refine absurd (h.created (coinbaseTx 21 0 [heightOut 2, payTo 2 45]) ?_ (Hash.ofNat 21, 1) ?_)
    (by decide +kernel)
  · exact mem_cons_of_mem _ mem_cons_self
  · decide +kernel

end Hcashd.Blockchain
