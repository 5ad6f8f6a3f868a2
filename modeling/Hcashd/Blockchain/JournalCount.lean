import Hcashd.Blockchain.Ballot
import Hcashd.Blockchain.Journal

/-!
# The size of the spend journal

Five functions count the outputs that a block spends: the two ways of connecting it append an entry
for each to the journal, `countSpentOutputs` counts them from the transactions,
`dbFetchSpendJournalEntry` counts them again, and `disconnectTransactions` reads one entry for each.
They decide on their own whether the regular transactions of the parent count and whether the stake
transactions of a micro block do. `journalAgrees_iff` says for which blocks they agree.
-/

namespace Hcashd.Blockchain

open Lib Stake List

section Spec

variable (env : Env) (block parent : MsgBlock)

/-- A number of journal entries is the one that everything else works with: that `countSpentOutputs`
counts, that the journal is read with, and that suffices to disconnect the block. -/
structure JournalAgrees (spent : ℕ) : Prop where
  counted : spent = countSpentOutputs env block parent
  expected : numStxos env (journalTxns env block parent) = countSpentOutputs env block parent
  inRange : ∀ db c, c.stxos.length = countSpentOutputs env block parent →
    disconnectTransactions env db c block parent ≠ .error .panic

/-- The blocks for which everything agrees: the regular transactions of the parent count by the vote
bit as they do by the kind of the parent, or there are none; no stake transaction of a key block
looks like a coinbase, and none of a micro block has inputs. -/
structure JournalSound : Prop where
  regular : parent.transactions.length = coinbases env parent.header ∨
    if block.header.height = 0 then blockValid block.header.voteBits = false
    else blockValid block.header.voteBits = true ∨ isKeyBlock env parent.header = true
  stake : ∀ tx ∈ block.sTransactions,
    if isKeyBlock env block.header then isCoinBaseTx tx = false else tx.txIn = []

/-- The outputs that a list of transactions spends. -/
def spentIn (txs : List MsgTx) : ℕ := (txs.map fun tx => (spentPlaces env tx).length).sum

/-- The number of entries that connecting a block appends to the journal. -/
def journalled : ℕ :=
  (if block.header.height ≠ 0 ∧
    regularTxTreeValid env block parent then spentIn env parent.transactions
    else 0) + spentIn env block.sTransactions

/-- The inputs of the regular transactions of a block. -/
def regularInputs : ℕ :=
  ((block.transactions.drop (coinbases env block.header)).map fun tx => tx.txIn.length).sum

end Spec

variable {env : Env} {block parent : MsgBlock} {db : UtxoSet} {c c' final : Connecting}
  {viewpoint : StakeViewpoint} {prev : ChainBlock} {below : Chain}

/-! ## Connecting -/

theorem sum_map_zipIdx (g : MsgTx → ℕ) (txs : List MsgTx) (k : ℕ) :
    ((txs.zipIdx k).map fun p => g p.1).sum = (txs.map g).sum := by
  have hmap : (txs.zipIdx k).map (fun p => g p.1) = ((txs.zipIdx k).map Prod.fst).map g := by
    rw [map_map]
    rfl
  rw [hmap, zipIdx_map_fst]

/-- Fetching leaves the journal alone. -/
theorem stxos_fetchFor (h : fetchFor env db c viewpoint block parent = .ok c') :
    c'.stxos = c.stxos := by
  obtain ⟨view, -, h⟩ := bind_eq_ok.1 h
  exact pure_eq_ok.1 h ▸ rfl

variable {txs : List MsgTx}

/-- Fetching a tree leaves the journal alone. -/
theorem stxos_fetchTree (h : fetchTree env db c viewpoint txs block parent = .ok c') :
    c'.stxos = c.stxos := by
  obtain ⟨view, -, h⟩ := bind_eq_ok.1 h
  exact stxos_fetchFor (c := { c with view := view }) h

/-- Connecting a tree journals one entry for each input it spends. -/
theorem length_stxos_connectTree {height : ℕ} (h : connectTree env c txs height = .ok c') :
    c'.stxos.length = c.stxos.length + spentIn env txs := by
  rw [spentIn, ← sum_map_zipIdx _ txs 0]
  exact foldlM_sum (fun c : Connecting => c.stxos.length) (fun p : MsgTx × ℕ =>
    (spentPlaces env p.1).length) (fun p _ _ _ hp => length_stxos_connectTransaction env hp) h

/-- `connectTransactions` journals the inputs of both trees. -/
theorem length_stxos_connectTransactions (h : connectTransactions env db c block parent = .ok c') :
    c'.stxos.length = c.stxos.length + journalled env block parent := by
  obtain ⟨c1, hprev, h⟩ := bind_eq_ok.1 h
  obtain ⟨c2, hstake, h⟩ := bind_eq_ok.1 h
  obtain rfl := pure_eq_ok.1 h
  have hstakeLength : c2.stxos.length = c1.stxos.length + spentIn env block.sTransactions := by
    rw [spentIn, ← sum_map_zipIdx _ block.sTransactions 0]
    refine foldlM_sum (fun c : Connecting => c.stxos.length)
      (fun p : MsgTx × ℕ => (spentPlaces env p.1).length) (fun p _ s s' hp => ?_) hstake
    obtain ⟨s1, hfetch, hconnect⟩ := bind_eq_ok.1 hp
    rw [length_stxos_connectTransaction env hconnect, stxos_fetchFor hfetch]
  have hprevLength : c1.stxos.length = c.stxos.length +
      if block.header.height ≠ 0 ∧ regularTxTreeValid env block parent then
        spentIn env parent.transactions else 0 := by
    unfold connectPrevRegular at hprev
    by_cases hheight : block.header.height = 0
    · rw [if_pos hheight, pure_eq_ok] at hprev
      simp [hheight, hprev]
    · rw [if_neg hheight, bind_eq_ok] at hprev
      obtain ⟨c0, hfetch, hprev⟩ := hprev
      rw [← stxos_fetchFor hfetch]
      split_ifs at hprev with hvalid
      · rw [if_pos ⟨hheight, hvalid⟩]
        exact length_stxos_connectTree hprev
      · rw [if_neg fun h => hvalid h.2, pure_eq_ok.1 hprev, Nat.add_zero]
  rw [hstakeLength, hprevLength, journalled, Nat.add_assoc]

/-- So does the walk of the checks. -/
theorem length_stxos_checkAndConnect {ctx : TreeContext} {s : TreeState}
    (h : ctx.checkAndConnectTxs env c txs = .ok s) :
    s.conn.stxos.length = c.stxos.length + spentIn env txs := by
  rw [spentIn, ← sum_map_zipIdx _ txs 0]
  exact foldlM_sum (fun s : TreeState => s.conn.stxos.length) (fun p : MsgTx × ℕ =>
    (spentPlaces env p.1).length) (fun p _ _ _ hp =>
      length_stxos_connectTransaction env (treeStep_of_checkAndConnectTx hp).connected) h

/-! ## Disconnecting

A step that reads `n` entries of the journal either gets them, or stops because an entry does not
have what it is asked for. -/

/-- What a step that reads a number of entries of a journal returns. -/
structure Reads (n : ℕ) (stxos : List SpentTxOut) (r : Except Err Connecting) : Prop where
  read : ∀ c, r = .ok c → n ≤ stxos.length ∧ c.stxos = stxos.drop n
  enough : n ≤ stxos.length → (∃ c, r = .ok c ∧ c.stxos = stxos.drop n) ∨
    (r = .error .assertion ∧ ∃ stxo ∈ stxos, stxo.txFullySpent = false)
  tooFew : stxos.length < n → (∀ stxo ∈ stxos, stxo.txFullySpent = true) → r = .error .panic

theorem Reads.ok (c : Connecting) : Reads 0 c.stxos (.ok c) :=
  ⟨fun c' hc' => by cases hc'; exact ⟨Nat.zero_le _, rfl⟩, fun _ => .inl ⟨c, rfl, rfl⟩,
    fun hlt => absurd hlt (Nat.not_lt_zero _)⟩

/-- Two steps read one after the other. -/
theorem Reads.bind {n m : ℕ} {stxos : List SpentTxOut} {r : Except Err Connecting}
    {f : Connecting → Except Err Connecting} (h : Reads n stxos r)
    (hf : ∀ c, r = .ok c → Reads m c.stxos (f c)) : Reads (n + m) stxos (r >>= f) := by
  constructor
  · intro c' hc'
    obtain ⟨c, rfl, hc'⟩ := bind_eq_ok.1 hc'
    obtain ⟨hn, hc⟩ := h.read c rfl
    obtain ⟨hm, hc'⟩ := (hf c rfl).read c' hc'
    rw [hc, length_drop] at hm
    exact ⟨by omega, by rw [hc', hc, drop_drop]⟩
  · intro hle
    obtain ⟨c, rfl, hc⟩ | ⟨rfl, hstxo⟩ := h.enough (by omega)
    · have hle' : m ≤ c.stxos.length := by
        rw [hc, length_drop]
        omega
      obtain ⟨c', hok, hc'⟩ | ⟨herr, stxo, hmem, hstxo⟩ := (hf c rfl).enough hle'
      · exact .inl ⟨c', hok, by rw [hc', hc, drop_drop]⟩
      · exact .inr ⟨herr, stxo, mem_of_mem_drop (hc ▸ hmem), hstxo⟩
    · exact .inr ⟨rfl, hstxo⟩
  · intro hlt hall
    by_cases hn : stxos.length < n
    · rw [h.tooFew hn hall]
      rfl
    · obtain ⟨c, rfl, hc⟩ | ⟨-, stxo, hmem, hstxo⟩ := h.enough (by omega)
      · refine (hf c rfl).tooFew ?_ fun stxo hmem => hall stxo (mem_of_mem_drop (hc ▸ hmem))
        rw [hc, length_drop]
        omega
      · rw [hall stxo hmem] at hstxo
        cases hstxo

/-- A loop reads what its turns read. -/
theorem Reads.foldlM {α : Type} {f : Connecting → α → Except Err Connecting} {g : α → ℕ}
    {l : List α} (h : ∀ a ∈ l, ∀ c, Reads (g a) c.stxos (f c a)) :
    ∀ c, Reads (l.map g).sum c.stxos (l.foldlM f c) := by
  induction l with
  | nil => exact Reads.ok
  | cons a l ih =>
    intro c
    rw [map_cons, sum_cons, foldlM_cons]
    exact (h a mem_cons_self c).bind fun c' _ => ih (fun b hb => h b (mem_cons_of_mem _ hb)) c'

/-- Restoring an input reads one entry. -/
theorem reads_unspendInput (tx : MsgTx) (c : Connecting) (txIn : TxIn) :
    Reads 1 c.stxos (unspendInput tx c txIn) := by
  unfold unspendInput
  cases hstxos : c.stxos with
  | nil =>
    exact ⟨fun _ h => (nomatch h), fun hle => absurd hle (Nat.not_succ_le_zero 0), fun _ _ => rfl⟩
  | cons stxo stxos =>
    refine ⟨fun c' hc' => ?_, fun _ => ?_, fun hlt => absurd hlt (by simp)⟩
    · obtain ⟨_, -, hc'⟩ := bind_eq_ok.1 hc'
      exact pure_eq_ok.1 hc' ▸ ⟨Nat.le_add_left 1 _, rfl⟩
    by_cases hmissing :
      (c.view.lookupEntry txIn.previousOutPoint.hash).isNone ∧ stxo.txFullySpent = false
    · refine .inr ⟨?_, stxo, mem_cons_self, hmissing.2⟩
      simp only [rejectIf, if_pos hmissing]
      rfl
    · refine .inl ⟨⟨c.view.setEntry txIn.previousOutPoint.hash (unspentEntry tx c.view txIn stxo),
        stxos⟩, ?_, rfl⟩
      simp only [rejectIf, if_neg hmissing]
      rfl

/-- A loop that reads one entry for each input, from the last one on. -/
theorem Reads.inputs {f : Connecting → TxIn → Except Err Connecting}
    (h : ∀ c txIn, Reads 1 c.stxos (f c txIn))
    (inputs : List TxIn) (c : Connecting) :
    Reads inputs.length c.stxos (inputs.reverse.foldlM f c) := by
  simpa using Reads.foldlM (l := inputs.reverse) (fun txIn _ c => h c txIn) c

theorem reads_unspendSliceInput (tx : MsgTx) (c : Connecting) (txIn : TxIn) :
    Reads 1 c.stxos (unspendSliceInput env tx c txIn) := by
  unfold unspendSliceInput
  cases hstxos : c.stxos with
  | nil =>
    exact ⟨fun _ h => (nomatch h), fun hle => absurd hle (Nat.not_succ_le_zero 0), fun _ _ => rfl⟩
  | cons stxo stxos =>
    refine ⟨fun c' hc' => ?_, fun _ => .inl ⟨_, rfl, rfl⟩, fun hlt => absurd hlt (by simp)⟩
    cases hc'
    exact ⟨Nat.le_add_left 1 _, rfl⟩

/-- Rolling a regular tree back reads its entries. -/
theorem stxos_disconnectTransactionSlice (hsane : SaneBlock env block)
    (h : disconnectTransactionSlice env c block.transactions block.header.height
      (isKeyBlock env block.header) = .ok c') (hspent :
      spentIn env block.transactions ≤ c.stxos.length) :
    c'.stxos = c.stxos.drop (spentIn env block.transactions) := by
  unfold disconnectTransactionSlice at h
  by_cases hempty : c.stxos.isEmpty
  · rw [if_pos hempty, pure_eq_ok] at h
    rw [isEmpty_iff.1 hempty] at hspent
    rw [Nat.le_zero.1 hspent, drop_zero, h]
  · rw [if_neg hempty] at h
    have hsum : (block.transactions.zipIdx.reverse.map fun p =>
        (restoredInputs (isKeyBlock env block.header) p.1 p.2).length).sum =
        spentIn env block.transactions := by
      rw [map_reverse, sum_reverse, spentIn, ← sum_map_zipIdx _ _ 0]
      refine congrArg sum (map_congr_left fun p hp => ?_)
      rw [← hsane.restoredInputs_eq p hp, length_map]
    rw [← hsum]
    refine ((Reads.foldlM (fun p _ c => ?_) c).read c' h).2
    dsimp only
    rw [disconnectSliceTx_eq]
    exact Reads.inputs (reads_unspendSliceInput p.1) _
      { c with view := clearTx env c.view p.1 (newTxEntry env p.1 block.header.height p.2) }

theorem reads_disconnectRegularTx (parent : MsgBlock) (c : Connecting) (tx : MsgTx) (i : ℕ) :
    Reads (if i < coinbases env parent.header then 0 else tx.txIn.length) c.stxos
      (disconnectRegularTx env parent c tx i) := by
  unfold disconnectRegularTx
  by_cases hi : i < coinbases env parent.header
  · simp only [hi, decide_true, if_true]
    exact Reads.ok
      { c with view := clearTx env c.view tx (newRegularEntry tx parent.header.height i true) }
  · simp only [hi, decide_false, Bool.false_eq_true, if_false]
    exact Reads.inputs (reads_unspendInput tx) tx.txIn
      { c with view := clearTx env c.view tx (newRegularEntry tx parent.header.height i false) }

theorem sum_map_zipIdx_drop (g : MsgTx → ℕ) (k : ℕ) (txs : List MsgTx) :
    (txs.zipIdx.map fun p => if p.2 < k then 0 else g p.1).sum = ((txs.drop k).map g).sum := by
  have hsum : ∀ n, ((txs.zipIdx n).map fun p => if p.2 < k then 0 else g p.1).sum =
      ((txs.drop (k - n)).map g).sum := by
    induction txs with
    | nil => simp
    | cons tx txs ih =>
      intro n
      rw [zipIdx_cons, map_cons, sum_cons, ih]
      by_cases hn : n < k
      · have hsub : k - n = (k - (n + 1)) + 1 := by omega
        rw [if_pos hn, Nat.zero_add, hsub, drop_succ_cons]
      · have hsub : k - n = 0 := by omega
        have hsub' : k - (n + 1) = 0 := by omega
        rw [if_neg hn, hsub, hsub', drop_zero, drop_zero, map_cons, sum_cons]
  exact hsum 0

variable (env block parent) in
/-- The number of journal entries that disconnecting a block reads. -/
def readBack : ℕ :=
  (block.sTransactions.map fun tx => (spendingInputs env tx).length).sum +
    if block.header.height ≠ 0 ∧
    regularTxTreeValid env block parent then regularInputs env parent else 0

section

variable (hparent : coinbases env parent.header ≤ parent.transactions.length)

include hparent

/-- Rolling the parent's tree back reads its entries. -/
theorem reads_disconnectPrevRegular
    (db : UtxoSet) (c : Connecting) :
    Reads (if block.header.height ≠ 0 ∧ regularTxTreeValid env block parent then
      regularInputs env parent else 0) c.stxos (disconnectPrevRegular env db c block parent) := by
  unfold disconnectPrevRegular
  by_cases hvalid : block.header.height ≠ 0 ∧ regularTxTreeValid env block parent
  · rw [if_pos hvalid, if_pos hvalid]
    obtain ⟨view, hfetch⟩ :
      ∃ view, fetchFor env db c .prevRegular block parent = .ok ⟨view, c.stxos⟩ := by
      unfold fetchFor fetchInputUtxos fetchRegularInputs
      simp only [rejectIf, if_neg (not_lt.2 hparent)]
      exact ⟨_, rfl⟩
    rw [hfetch, regularInputs, ← sum_map_zipIdx_drop, ← sum_reverse, ← map_reverse]
    exact Reads.foldlM (fun p _ c => reads_disconnectRegularTx parent c p.1 p.2) ⟨view, c.stxos⟩
  · rw [if_neg hvalid, if_neg hvalid]
    exact Reads.ok c

/-- What `disconnectTransactions` reads. -/
theorem reads_disconnectTransactions
    (hcount : c.stxos.length = countSpentOutputs env block parent) :
    Reads (readBack env block parent) c.stxos (disconnectTransactions env db c block parent) := by
  have hstake : ∀ c : Connecting, Reads (block.sTransactions.map fun tx =>
      (spendingInputs env tx).length).sum c.stxos (block.sTransactions.zipIdx.reverse.foldlM
        (fun c p => disconnectStakeTx env block.header.height c p.1 p.2) c) := by
    intro c
    rw [← sum_map_zipIdx _ _ 0, ← sum_reverse, ← map_reverse]
    exact Reads.foldlM (fun p _ c => Reads.inputs (reads_unspendInput p.1) (spendingInputs env p.1)
      { c with view := clearTx env c.view p.1 (newTxEntry env p.1 block.header.height p.2) }) c
  obtain ⟨view, hfetch⟩ :
    ∃ view, fetchFor env db c .currentStake block parent = .ok ⟨view, c.stxos⟩ := ⟨_, rfl⟩
  unfold disconnectTransactions
  rw [rejectIf, if_neg (not_not.2 hcount), hfetch]
  exact (hstake ⟨view, c.stxos⟩).bind fun c' _ =>
    (reads_disconnectPrevRegular hparent db c').bind fun c'' _ =>
      Reads.ok { c'' with view := { c''.view with bestHash := env.blockHash parent.header } }

/-- A rollback stays inside the journal iff it reads no more than was counted. -/
theorem disconnectTransactions_ne_panic_iff :
    (∀ db c, c.stxos.length = countSpentOutputs env block parent →
      disconnectTransactions env db c block parent ≠ .error .panic) ↔
    readBack env block parent ≤ countSpentOutputs env block parent := by
  constructor
  · intro h
    by_contra hlt
    let stxo : SpentTxOut := ⟨0, 0, [], 0, 0, 0, false, false, .regular, true, []⟩
    let c : Connecting :=
      ⟨⟨∅, 0, .prevRegular⟩, replicate (countSpentOutputs env block parent) stxo⟩
    have hcount : c.stxos.length = countSpentOutputs env block parent := length_replicate
    refine h ∅ c hcount ((reads_disconnectTransactions hparent hcount).tooFew (by omega) ?_)
    intro stxo' hmem
    rw [eq_of_mem_replicate hmem]
  · intro hle db c hcount hpanic
    obtain ⟨c', hok, -⟩ | ⟨herr, -⟩ :=
      (reads_disconnectTransactions hparent hcount).enough (by omega)
    · exact nomatch hok.symm.trans hpanic
    · exact nomatch herr.symm.trans hpanic

end

/-! ## Counting -/

variable {tx : MsgTx}

theorem txType_eq_sSGen : txType env tx = .sSGen ↔ isSSGen env tx = true := by
  have hexcl : isSStx env tx = true → isSSGen env tx = false := isSSGen_of_isSStx
  simp only [txType, determineTxType]
  split_ifs <;> simp_all

/-- A vote has two inputs. -/
theorem length_txIn_of_isSSGen (h : isSSGen env tx = true) : tx.txIn.length = 2 := by
  simp only [isSSGen, Stake.isSSGen, NumInputsPerSSGen, Bool.and_eq_true, beq_iff_eq] at h
  exact h.1.1.1.1.1

/-- A revocation has one input. -/
theorem length_txIn_of_sSRtx (h : txType env tx = .sSRtx) : tx.txIn.length = 1 := by
  have hrtx : isSSRtx env tx = true := by
    simp only [txType, determineTxType] at h
    split_ifs at h with hsstx hssgen hssrtx
    exact hssrtx
  simp only [isSSRtx, Stake.isSSRtx, NumInputsPerSSRtx, Bool.and_eq_true, beq_iff_eq] at hrtx
  exact hrtx.1.1.1.1.1

/-- A coinbase has one input. -/
theorem length_txIn_of_isCoinBaseTx (h : isCoinBaseTx tx = true) : tx.txIn.length = 1 := by
  unfold isCoinBaseTx at h
  split at h
  · rename_i txIn hin
    rw [hin, length_singleton]
  · cases h

theorem length_spendingInputs (tx : MsgTx) :
    (spendingInputs env tx).length = if txType env tx = .sSGen then 1 else tx.txIn.length := by
  unfold spendingInputs
  by_cases hvote : isSSGen env tx = true
  · rw [if_pos hvote, if_pos (txType_eq_sSGen.2 hvote), length_tail, length_txIn_of_isSSGen hvote]
  · rw [if_neg hvote, if_neg fun h => hvote (txType_eq_sSGen.1 h)]

/-- The number of entries is the number of spending inputs. -/
theorem numStxos_eq (txs : List MsgTx) :
    numStxos env txs = (txs.map fun tx => (spendingInputs env tx).length).sum := by
  simp only [numStxos, length_spendingInputs]

theorem sum_stakeSpent (txs : List MsgTx) : (txs.map fun tx =>
    if txType env tx = .sSGen ∨ txType env tx = .sSRtx then 1 else tx.txIn.length).sum =
      numStxos env txs := by
  unfold numStxos
  refine congrArg sum (map_congr_left fun tx _ => ?_)
  by_cases hvote : txType env tx = .sSGen
  · rw [if_pos (.inl hvote), if_pos hvote]
  · rw [if_neg hvote]
    split_ifs with hrtx
    · exact (length_txIn_of_sSRtx (hrtx.resolve_left hvote)).symm
    · rfl

variable (env) in
theorem spentIn_add_countP (txs : List MsgTx) :
    spentIn env txs + txs.countP isCoinBaseTx = numStxos env txs := by
  rw [numStxos_eq, spentIn]
  induction txs with
  | nil => rfl
  | cons tx txs ih =>
    rw [map_cons, sum_cons, map_cons, sum_cons, countP_cons, length_spentPlaces]
    cases hcb : isCoinBaseTx tx with
    | true =>
      have hone : (spendingInputs env tx).length = 1 := by
        rw [spendingInputs, isSSGen_of_isCoinBaseTx env hcb, if_neg Bool.false_ne_true,
          length_txIn_of_isCoinBaseTx hcb]
      simp only [if_true]
      omega
    | false =>
      simp only [Bool.false_eq_true, if_false]
      omega

/-- No entries are counted where there are no inputs. -/
theorem numStxos_eq_zero : numStxos env txs = 0 ↔ ∀ tx ∈ txs, tx.txIn = [] := by
  unfold numStxos
  rw [sum_eq_zero_iff, forall_mem_map]
  refine forall₂_congr fun tx _ => ?_
  by_cases hvote : txType env tx = .sSGen
  · have hlength := length_txIn_of_isSSGen (txType_eq_sSGen.1 hvote)
    rw [if_pos hvote]
    exact ⟨fun h => absurd h one_ne_zero, fun h => by simp [h] at hlength⟩
  · rw [if_neg hvote, length_eq_zero_iff]

section Sane

variable {adjustedTime : ℤ} (h : checkBlockSanity env block adjustedTime false = .ok ⟨⟩)
include h

theorem spentIn_transactions : spentIn env block.transactions = regularInputs env block := by
  have hsane := saneBlock_of_checkBlockSanity h
  have hzero : ∀ tx ∈ block.transactions.take (coinbases env block.header),
      (spentPlaces env tx).length = 0 := by
    intro tx htx
    rw [length_spentPlaces, if_pos (hsane.coinbase tx htx)]
  have hrest : ∀ tx ∈ block.transactions.drop (coinbases env block.header),
      (spentPlaces env tx).length = tx.txIn.length := by
    intro tx htx
    rw [length_spentPlaces, hsane.others tx htx, if_neg Bool.false_ne_true,
      spendingInputs_eq (hsane.regular tx (mem_of_mem_drop htx)).1]
  unfold spentIn regularInputs
  conv_lhs => rw [← take_append_drop (coinbases env block.header) block.transactions]
  rw [map_append, sum_append, map_congr_left hrest, sum_eq_zero_iff.2 (forall_mem_map.2 hzero),
    Nat.zero_add]

theorem numStxos_drop : numStxos env (block.transactions.drop (coinbases env block.header)) =
    regularInputs env block := by
  have hsane := saneBlock_of_checkBlockSanity h
  unfold numStxos regularInputs
  refine congrArg sum (map_congr_left fun tx htx => ?_)
  rw [if_neg]
  rw [(hsane.regular tx (mem_of_mem_drop htx)).1]
  exact TxType.noConfusion

theorem regularInputs_eq_zero : regularInputs env block = 0 ↔
    block.transactions.length = coinbases env block.header := by
  have hle := (saneBlock_of_checkBlockSanity h).length
  obtain ⟨-, -, -, -, -, hregular, -⟩ := checkBlockSanity_eq_ok.1 h
  unfold regularInputs
  rw [sum_eq_zero_iff, forall_mem_map]
  constructor
  · intro hall
    have hnil : block.transactions.drop (coinbases env block.header) = [] := by
      refine eq_nil_iff_forall_not_mem.2 fun tx htx => ?_
      have hsane := hregular tx (mem_of_mem_drop htx)
      unfold checkRegularTx checkTransactionSanity at hsane
      simp only [bind_eq_ok, rejectIf_eq_ok, exists_const] at hsane
      exact hsane.2.1 (length_eq_zero_iff.1 (hall tx htx))
    exact le_antisymm (drop_eq_nil_iff.1 hnil) hle
  · intro hlength tx htx
    rw [drop_eq_nil_of_le hlength.le] at htx
    cases htx

end Sane

/-- The five numbers, for `P` inputs of the parent's regular transactions and `N` inputs of the
stake transactions, of which `CB` look like that of a coinbase. -/
theorem journal_arith (P : ℕ) {N S CB : ℕ} (approved key parentKey : Bool) (first : Prop)
    [Decidable first] (hstake : S + CB = N) :
    ((if ¬ first ∧ (approved || !parentKey) then P else 0) + S = (if approved then P else 0) +
      (if key then N else 0) ∧
      (if approved then P else 0) + N = (if approved then P else 0) + (if key then N else 0) ∧
      N + (if ¬ first ∧ (approved || !parentKey) then P else 0) ≤
        (if approved then P else 0) + (if key then N else 0)) ↔
    (P = 0 ∨ if first then approved = false else approved = true ∨ parentKey = true) ∧
      if key then CB = 0 else N = 0 := by
  by_cases hfirst :
    first <;> cases approved <;> cases key <;> cases parentKey <;> simp [hfirst] <;> omega

/-- The journal of a block agrees iff it is sound. -/
theorem journalAgrees_journalled {adjustedTime : ℤ}
    (hparent : checkBlockSanity env parent adjustedTime false = .ok ⟨⟩) :
    JournalAgrees env block parent (journalled env block parent) ↔
    JournalSound env block parent := by
  have hcount : countSpentOutputs env block parent =
      (if blockValid block.header.voteBits then regularInputs env parent else 0) +
        if isKeyBlock env block.header then numStxos env block.sTransactions else 0 := by
    rw [← sum_stakeSpent]
    rfl
  have hexpected : numStxos env (journalTxns env block parent) =
      (if blockValid block.header.voteBits then regularInputs env parent else 0) +
        numStxos env block.sTransactions := by
    rw [← numStxos_drop hparent]
    unfold numStxos journalTxns
    rw [map_append, sum_append]
    split_ifs <;> rfl
  have hread : readBack env block parent = numStxos env block.sTransactions +
      if block.header.height ≠ 0 ∧ regularTxTreeValid env block parent then regularInputs env parent
      else 0 := by
    rw [numStxos_eq]
    rfl
  have hjournal : journalled env block parent =
      (if block.header.height ≠ 0 ∧
        regularTxTreeValid env block parent then regularInputs env parent
        else 0) + spentIn env block.sTransactions := by
    rw [← spentIn_transactions hparent]
    rfl
  have hstake : (∀ tx ∈ block.sTransactions,
      if isKeyBlock env block.header then isCoinBaseTx tx = false else tx.txIn = []) ↔
      if isKeyBlock env block.header then block.sTransactions.countP isCoinBaseTx = 0
      else numStxos env block.sTransactions = 0 := by
    split_ifs
    · simp [countP_eq_zero]
    · exact numStxos_eq_zero.symm
  have hrange : _ ↔ readBack env block parent ≤ countSpentOutputs env block parent :=
    disconnectTransactions_ne_panic_iff (saneBlock_of_checkBlockSanity hparent).length
  have harith := journal_arith (regularInputs env parent) (blockValid block.header.voteBits)
    (isKeyBlock env block.header) (isKeyBlock env parent.header) (block.header.height = 0)
    (spentIn_add_countP env block.sTransactions)
  rw [regularInputs_eq_zero hparent, ← hstake, ← regularTxTreeValid, ← hcount, ← hexpected, ← hread,
    ← hjournal, ← hrange] at harith
  constructor
  · rintro ⟨h1, h2, h3⟩
    have h := harith.1 ⟨h1, h2, h3⟩
    exact ⟨h.1, h.2⟩
  · rintro ⟨h1, h2⟩
    have h := harith.2 ⟨h1, h2⟩
    exact ⟨h.1, h.2.1, h.2.2⟩

/-- The journal that `checkConnectBlock` has before its rollback. -/
theorem CheckSteps.length_stxos_state
    (h : CheckSteps env db prev below block final) (hheight : 1 < block.header.height) :
    h.state.conn.stxos.length = journalled env block prev.block +
      spentIn env block.transactions := by
  have hparent : h.parent.stxos.length = if block.header.height ≠ 0 ∧
      regularTxTreeValid env block prev.block then spentIn env prev.block.transactions else 0 := by
    have hrun := h.connectParent
    unfold connectParentTree at hrun
    by_cases hvalid : regularTxTreeValid env block prev.block
    · rw [if_pos hvalid, bind_eq_ok] at hrun
      obtain ⟨c0, hfetch, hrun⟩ := hrun
      rw [if_pos ⟨by omega, hvalid⟩, length_stxos_connectTree hrun, stxos_fetchFor hfetch]
      exact Nat.zero_add _
    · rw [if_neg hvalid, pure_eq_ok] at hrun
      rw [if_neg fun hv => hvalid hv.2, ← hrun]
      rfl
  rw [length_stxos_checkAndConnect h.run, stxos_fetchTree h.fetchRegular,
    length_stxos_checkAndConnect h.runStake, stxos_fetchTree h.fetchStake, hparent, journalled]

/-- The journal that `checkConnectBlock` leaves after its rollback has as many entries as that of
`connectTransactions`. -/
theorem CheckSteps.length_stxos (h : CheckSteps env db prev below block final)
    (hsane : SaneBlock env block)
    (hheight : 1 < block.header.height) : final.stxos.length = journalled env block prev.block := by
  have hstate := h.length_stxos_state hheight
  have hrollback := h.rollback
  rw [rollbackRegularTree,
    if_pos (show 1 < (newBlockNode env block).height from hheight)] at hrollback
  have hfinal := stxos_disconnectTransactionSlice hsane hrollback (by omega)
  rw [hfinal, length_drop, hstate, Nat.add_sub_cancel]

/-- The numbers that everything works with agree exactly for sound blocks, whichever way the block
is connected. -/
theorem journalAgrees_iff {adjustedTime adjustedTime' : ℤ}
    (hblock : checkBlockSanity env block adjustedTime false = .ok ⟨⟩)
    (hparent : checkBlockSanity env parent adjustedTime' false = .ok ⟨⟩) :
    (∀ db c c' spent, connectTransactions env db c block parent = .ok c' →
      c'.stxos.length = c.stxos.length + spent →
      (JournalAgrees env block parent spent ↔ JournalSound env block parent)) ∧
    ∀ db prev below c', 1 < block.header.height → prev.block = parent →
      checkConnectBlock env db prev below block = .ok c' →
      (JournalAgrees env block parent c'.stxos.length ↔ JournalSound env block parent) := by
  constructor
  · intro db c c' spent hrun hspent
    have hlength := length_stxos_connectTransactions hrun
    have heq : spent = journalled env block parent := by omega
    rw [heq]
    exact journalAgrees_journalled hparent
  · rintro db prev below c' hheight rfl hrun
    obtain ⟨hsteps, -⟩ := exists_checkSteps_of_checkConnectBlock hrun
    rw [hsteps.length_stxos (saneBlock_of_checkBlockSanity hblock) hheight]
    exact journalAgrees_journalled hparent

/-! ## A chain on which they disagree -/

/-- A key block that spends an output of block one. -/
def feeBlock : MsgBlock := blockOf (sampleEnv sampleParams) (sampleHeader 2 1 2 1 1)
  [coinbaseTx 20 55 [payTo 9 0, payTo 2 0], coinbaseTx 21 0 [heightOut 2, payTo 2 105],
    plainTx 22 [spend 10 0 0 1000 1 0] [payTo 3 900]] []

/-- A micro block that takes a share of fees. -/
def feeMicroBlock : MsgBlock := blockOf (sampleEnv sampleParams) (sampleHeader 3 2 103 2 2)
  [coinbaseTx 30 0 [heightOut 3, payTo 2 30]] []

/-- A micro block after a block with fees. -/
theorem journalAgrees_iff_feeMicroBlock : ∃ st,
    processBlocks (sampleEnv sampleParams) (fun _ _ => True) (genesisState (sampleEnv sampleParams))
      [(10, sampleBlockOne), (10, feeBlock)] = .ok st ∧
    ∃ c, connectTransactions (sampleEnv sampleParams) st.utxos
      (newView feeMicroBlock.header) feeMicroBlock
      feeBlock = .ok c ∧ JournalAgrees (sampleEnv sampleParams) feeMicroBlock feeBlock 1 := by
  have hsane : checkBlockSanity (sampleEnv sampleParams) feeMicroBlock 10 false = .ok ⟨⟩ ∧
      checkBlockSanity (sampleEnv sampleParams) feeBlock 10 false = .ok ⟨⟩ := by decide +kernel
  refine ⟨_, eq_ok_valueOf (by decide +kernel), _, eq_ok_valueOf ?hc,
    ((journalAgrees_iff hsane.1 hsane.2).1 _ _ _ _ (eq_ok_valueOf ?hc) ?_).2 ⟨.inr ?_, ?_⟩⟩
  · decide +kernel
  · decide +kernel
  · decide +kernel
  · exact fun tx htx => absurd htx not_mem_nil

/-- A micro block that disapproves the key block under it. -/
def nayBlock : MsgBlock := blockOf (sampleEnv sampleParams)
  { sampleHeader 3 200 103 2 2 with voteBits := 0 }
  [coinbaseTx 30 0 [heightOut 3, payTo 2 0], plainTx 31 [spend 10 0 0 1000 1 0] [payTo 3 900]] []

/-- A micro block that follows it, and has the vote bits that it must have. -/
def nayChild : MsgBlock := blockOf (sampleEnv sampleParams)
  { sampleHeader 4 200 104 103 2 with voteBits := 0 } [coinbaseTx 40 0 [heightOut 4, payTo 2 0]] []

/-- A block and its child pass the checks, and the journal of the child does not have the number of
entries that is asked for when it is stored. -/
theorem exists_countSpentOutputs_ne :
    ∃ st c c', Accepted (sampleEnv sampleParams) (fun _ _ => True) st ∧
    checkBlock (sampleEnv sampleParams) st 10 nayBlock = .ok ⟨⟩ ∧
    checkConnectBlock (sampleEnv sampleParams) st.utxos st.tip st.below nayBlock = .ok c ∧
    let st' : ChainState :=
      ⟨⟨nayBlock, newBlockNode (sampleEnv sampleParams) nayBlock, st.tip.stakeNode⟩,
      st.chain, dbPutUtxoView st.utxos c.view⟩
    checkBlock (sampleEnv sampleParams) st' 10 nayChild = .ok ⟨⟩ ∧
    checkConnectBlock (sampleEnv sampleParams) st'.utxos st'.tip st'.below nayChild = .ok c' ∧
    c'.stxos.length ≠ countSpentOutputs (sampleEnv sampleParams) nayChild nayBlock ∧
    connectBlock (sampleEnv sampleParams) st' nayChild c' = .error .assertion := by
  exact ⟨_, _, _, accepted_valueOf _ [(10, sampleBlockOne), (10, feeBlock)]
    (by decide +kernel), by decide +kernel,
    eq_ok_valueOf
      (by decide +kernel), by decide +kernel, eq_ok_valueOf (by decide +kernel), by decide +kernel,
    by decide +kernel⟩

end Hcashd.Blockchain
