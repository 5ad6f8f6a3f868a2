import Hcashd.Blockchain.Chain
import Hcashd.Blockchain.TreeRun

/-!
# The steps of an accepted block

`processBlock` taken apart: what the context-free checks establish for a block (`SaneBlock`), the
views that `checkConnectBlock` goes through (`CheckSteps`), and the state that is written at the end
(`AcceptSteps`).
-/

namespace Hcashd.Blockchain

open Lib Stake List

variable {env : Env} {db : UtxoSet} {prev : ChainBlock} {below : Chain} {final : Connecting}
  {block : MsgBlock} {adjustedTime : ℤ}

/-- The checks of `checkBlockSanity`, one by one. -/
theorem checkBlockSanity_eq_ok : checkBlockSanity env block adjustedTime false = .ok ⟨⟩ ↔
    (checkProofOfWork env block.header false = .ok ⟨⟩ ∧ checkProofOfStake env block = .ok ⟨⟩ ∧
      block.header.timestamp ≤ adjustedTime + MaxTimeOffsetSeconds) ∧
    block.transactions ≠ [] ∧ env.blockSize block ≤ MaxBlockPayload ∧
    u32 (env.blockSize block) ≤ block.header.size ∧
    checkCoinbases block.transactions (coinbases env block.header) = .ok ⟨⟩ ∧
    (∀ tx ∈ block.transactions, checkRegularTx env tx = .ok ⟨⟩) ∧
    checkStakeTreeIf env (isKeyBlock env block.header) block = .ok ⟨⟩ ∧
    checkMerkleRoots env block (isKeyBlock env block.header) (!isKeyBlock env block.header) =
      .ok ⟨⟩ ∧
    ((block.transactions ++ block.sTransactions).map env.txHash).Nodup ∧
    ((block.transactions ++ block.sTransactions).map fun tx =>
      countSigOps env tx (isCoinBaseTx tx) (isSSGen env tx)).sum ≤ MaxSigOpsPerBlock ∧
    ¬ (u32 (block.header.keyHeight + 1) < env.params.stakeValidationHeight ∧
      block.header.voteBits ≠ earlyVoteBitsValue) := by
  unfold checkBlockSanity checkBlockHeaderSanity coinbases
  simp only [bind_eq_ok, rejectIf_eq_ok, forM_eq_ok, not_lt, not_not, Bool.not_false, Bool.true_and,
    Bool.false_or, Unique.exists_iff, PUnit.default_eq_unit, ne_eq]

variable (env) in
/-- What `checkBlockSanity` establishes for a block. -/
structure SaneBlock (block : MsgBlock) : Prop where
  coinbase : ∀ tx ∈ block.transactions.take (coinbases env block.header), isCoinBaseTx tx = true
  length : coinbases env block.header ≤ block.transactions.length
  others : ∀ tx ∈ block.transactions.drop (coinbases env block.header), isCoinBaseTx tx = false
  regular : ∀ tx ∈ block.transactions, txType env tx = .regular ∧ SaneTx env tx
  stake : isKeyBlock env block.header = true → ∀ tx ∈ block.sTransactions, SaneTx env tx ∧
    txType env tx ≠ .regular
  votes : isKeyBlock env block.header = true →
    countTxType env .sSGen block.sTransactions = block.header.voters ∧
      block.header.voters ≤ env.params.ticketsPerBlock

/-- What `checkBlockSanity` establishes. -/
theorem saneBlock_of_checkBlockSanity
    (h : checkBlockSanity env block adjustedTime false = .ok ⟨⟩) : SaneBlock env block := by
  unfold checkBlockSanity at h
  simp only [bind_eq_ok, rejectIf_eq_ok, exists_const, Bool.not_false, Bool.true_and,
    Bool.false_or] at h
  obtain ⟨_, -, -, -, -, _, hcoinbases, _, hregular, _, hstake, -⟩ := h
  have hcount : (if isKeyBlock env block.header then 2 else 1) = coinbases env block.header := rfl
  rw [hcount] at hcoinbases
  unfold checkCoinbases at hcoinbases
  simp only [bind_eq_ok, rejectIf_eq_ok, exists_const, forM_eq_ok, not_lt,
    Bool.not_eq_true, Bool.not_eq_false] at hcoinbases
  obtain ⟨hcoinbase, hlength, hothers⟩ := hcoinbases
  rw [forM_eq_ok] at hregular
  refine ⟨hcoinbase, hlength, hothers, fun tx htx => ?_, fun hkey tx htx => ?_, fun hkey => ?_⟩
  · have hcheck := hregular tx htx
    unfold checkRegularTx at hcheck
    simp only [bind_eq_ok, rejectIf_eq_ok, exists_const, not_not] at hcheck
    exact ⟨hcheck.1, saneTx_of_checkTransactionSanity hcheck.2⟩
  · rw [hkey, checkStakeTreeIf, if_pos rfl, checkStakeTree] at hstake
    simp only [bind_eq_ok, forM_eq_ok] at hstake
    have hcheck := hstake.choose_spec.1 tx htx
    unfold checkStakeTx at hcheck
    simp only [bind_eq_ok, rejectIf_eq_ok] at hcheck
    obtain ⟨_, hsane, htype⟩ := hcheck
    exact ⟨saneTx_of_checkTransactionSanity hsane, htype⟩
  · rw [hkey, checkStakeTreeIf, if_pos rfl, checkStakeTree] at hstake
    simp only [bind_eq_ok, rejectIf_eq_ok, exists_const, not_lt, not_not] at hstake
    obtain ⟨_, -, -, -, hle, hvoters, -⟩ := hstake
    exact ⟨hvoters, hvoters ▸ hle⟩

/-- What a rollback restores is what the block spent. -/
theorem SaneBlock.restoredInputs_eq_spentInputs (h : SaneBlock env block) :
    ∀ p ∈ block.transactions.zipIdx,
      restoredInputs (isKeyBlock env block.header) p.1 p.2 = spentInputs env p.1 := by
  rintro ⟨tx, i⟩ hp
  rw [mem_zipIdx_iff_getElem?] at hp
  have hplace :
      (i = 0 ∨ i = 1 ∧ isKeyBlock env block.header = true) ↔ i < coinbases env block.header := by
    unfold coinbases
    cases isKeyBlock env block.header with
    | true => simp only [and_true, if_true]; omega
    | false => simp
  unfold restoredInputs
  split_ifs with hcb
  · have hmem : tx ∈ block.transactions.take (coinbases env block.header) := by
      refine mem_of_getElem? (i := i) ?_
      rw [getElem?_take_of_lt (hplace.1 hcb)]
      exact hp
    rw [spentInputs, h.coinbase tx hmem]
    rfl
  · have hle : coinbases env block.header ≤ i := not_lt.1 fun hlt => hcb (hplace.2 hlt)
    have hmem : tx ∈ block.transactions.drop (coinbases env block.header) := by
      refine mem_of_getElem? (i := i - coinbases env block.header) ?_
      rw [getElem?_drop, Nat.add_sub_cancel' hle]
      exact hp
    rw [spentInputs, h.others tx hmem, spendingInputs_eq (h.regular tx (mem_of_getElem? hp)).1]
    rfl

theorem SaneBlock.restoredInputs_eq (h : SaneBlock env block) : ∀ p ∈ block.transactions.zipIdx,
      (restoredInputs (isKeyBlock env block.header) p.1 p.2).map placeOf = spentPlaces env p.1 := by
  intro p hp
  rw [h.restoredInputs_eq_spentInputs p hp, map_placeOf_spentInputs]

/-- The transactions that `fetchInputUtxos` may add outputs of. -/
def treeInFlight (viewpoint : StakeViewpoint) (block parent : MsgBlock) : List MsgTx :=
  match viewpoint with
  | .prevRegular => parent.transactions
  | .currentStake => []
  | .currentRegular => block.transactions

section Fetch

variable {c c' : Connecting} {viewpoint : StakeViewpoint} {parent : MsgBlock}
  {P : UtxoViewpoint → Prop}

variable (env db) in
/-- A statement about views that loading the inputs of a tree keeps: adding outputs of its
transactions and loading entries do. -/
structure FetchRule (txs : List MsgTx) (P : UtxoViewpoint → Prop) : Prop where
  stake : ∀ view viewpoint, P view → P { view with stakeView := viewpoint }
  add : ∀ view, ∀ tx ∈ txs, ∀ height i, P view → P (addTxOuts env view tx height i)
  load : ∀ view txSet, P view → P (fetchUtxosMain db view txSet)

/-- A property that fetches keep is kept by `fetchFor`. -/
theorem FetchRule.fetchFor (hrule : FetchRule env db (treeInFlight viewpoint block parent) P)
    (h : fetchFor env db c viewpoint block parent = .ok c') (hP : P c.view) :
    P c'.view ∧ c'.stxos = c.stxos := by
  unfold Blockchain.fetchFor fetchInputUtxos at h
  obtain ⟨view, hview, h⟩ := bind_eq_ok.1 h
  obtain rfl := pure_eq_ok.1 h
  refine ⟨?_, rfl⟩
  have hP := hrule.stake _ viewpoint hP
  cases viewpoint with
  | prevRegular | currentRegular =>
    exact fetchRegularInputs_induction hview hP (fun v tx htx i => hrule.add v tx htx _ i)
      hrule.load
  | currentStake =>
    obtain rfl := pure_eq_ok.1 hview
    exact hrule.load _ _ hP

variable {txs : List MsgTx}

/-- A property that fetches keep is kept by `fetchTree`. -/
theorem FetchRule.fetchTree (hrule : FetchRule env db (treeInFlight viewpoint block parent) P)
    (h : fetchTree env db c viewpoint txs block parent = .ok c') (hP : P c.view) :
    P c'.view ∧ c'.stxos = c.stxos := by
  unfold Blockchain.fetchTree at h
  obtain ⟨view, hview, h⟩ := bind_eq_ok.1 h
  refine hrule.fetchFor (c := { c with view := view }) h ?_
  have hstake := hrule.stake _ viewpoint hP
  unfold checkDupTxs at hview
  split_ifs at hview
  · simp only [bind_eq_ok, pure_eq_ok] at hview
    obtain ⟨_, -, rfl⟩ := hview
    exact hrule.load _ _ hstake
  · rw [pure_eq_ok] at hview
    exact hview ▸ hstake

end Fetch

/-- The views that `checkConnectBlock` goes through. -/
structure CheckSteps (env : Env) (db : UtxoSet) (prev : ChainBlock) (below : Chain)
    (block : MsgBlock) (final : Connecting) where
  checkKey : checkKeyBlock env block (Chain.headers (prev :: below)) prev.stakeNode = .ok ⟨⟩
  -- The parent's regular transactions.
  parent : Connecting
  connectParent : connectParentTree env db (newView block.header) block prev.block = .ok parent
  -- The stake transactions, with their inputs loaded, and then checked and connected.
  stakeFetched : Connecting
  stakeState : TreeState
  stakeFees : ℤ
  fetchStake :
    fetchTree env db parent .currentStake block.sTransactions block prev.block = .ok stakeFetched
  runStake : TreeContext.checkAndConnectTxs env
    ⟨prev :: below, block, newBlockNode env block, false⟩
    stakeFetched block.sTransactions = .ok stakeState
  checkStake : checkStakebaseValue env block.header (isKeyBlock env block.header)
    stakeState.totalFees block.sTransactions stakeState.conn.view = .ok ⟨⟩
  getStakeFees : getStakeTreeFees env block.header.keyHeight block.sTransactions
    stakeState.conn.view = .ok stakeFees
  -- The regular transactions.
  fetched : Connecting
  state : TreeState
  fetchRegular :
    fetchTree env db stakeState.conn .currentRegular block.transactions block prev.block =
      .ok fetched
  run : TreeContext.checkAndConnectTxs env ⟨prev :: below, block, newBlockNode env block, true⟩
    fetched block.transactions = .ok state
  checkCoinbase : checkCoinbaseValue env ⟨prev :: below, block, newBlockNode env block, true⟩
    (totalFeesByHash prev.node) state.totalFees stakeFees block.transactions = .ok ⟨⟩
  -- What is left after the regular transactions were taken back.
  rollback : rollbackRegularTree env ⟨prev :: below, block, newBlockNode env block, true⟩
    state.conn = .ok final
  checkOne : checkBlockOne env block = .ok ⟨⟩

/-- `checkConnectBlock` goes through these steps, the first of which are those of
`connectStakeTree`. -/
theorem exists_checkSteps_of_checkConnectBlock
    (h : checkConnectBlock env db prev below block = .ok final) :
    ∃ steps : CheckSteps env db prev below block final,
      connectStakeTree env db ⟨prev :: below, block, newBlockNode env block, false⟩ prev.block
        steps.parent = .ok (steps.stakeState.conn, steps.stakeFees) := by
  unfold checkConnectBlock at h
  simp only [bind_eq_ok, rejectIf_eq_ok, pure_eq_ok, exists_const] at h
  obtain ⟨-, _, hkey, c1, hparent, ⟨c2, stakeFees⟩, hstakeTree, c3, hregular, _, hrollback, _,
    hone, rfl⟩ := h
  have hstake := hstakeTree
  unfold connectStakeTree at hstake
  unfold connectRegularTree at hregular
  simp only [bind_eq_ok, pure_eq_ok, Prod.mk.injEq] at hstake hregular
  obtain ⟨stakeFetched, hfetchStake, stakeState, hrunStake, _, hcheckStake, fees, hfees, _, -, rfl,
    rfl⟩ := hstake
  obtain ⟨fetched, hfetch, state, hrun, _, hcoinbase, _, -, rfl⟩ := hregular
  exact ⟨⟨hkey, c1, hparent, stakeFetched, stakeState, fees, hfetchStake, hrunStake, hcheckStake,
    hfees, fetched, state, hfetch, hrun, hcoinbase, hrollback, hone⟩, hstakeTree⟩

/-- What an accepted block has gone through, and the state that is written. -/
structure AcceptSteps (env : Env) (st : ChainState) (block : MsgBlock) (st' : ChainState) where
  sane : SaneBlock env block
  prevKey : prevKeyHashExists env block.header st.tip.block.header = .ok ⟨⟩
  context : checkBlockContext env block st.tip.block.header (Chain.headers st.chain) = .ok ⟨⟩
  final : Connecting
  check : CheckSteps env st.utxos st.tip st.below block final
  journal : final.stxos.length = countSpentOutputs env block st.tip.block
  stakeNode : Stake.Node
  fetchNode : fetchStakeNode env st.chain st.tip.stakeNode block = .ok stakeNode
  state_eq : st' =
    ⟨⟨block, newBlockNode env block, stakeNode⟩, st.chain, dbPutUtxoView st.utxos final.view⟩

/-- Every accepted block goes through these steps. -/
theorem acceptSteps_of_processBlock {st st' : ChainState}
    (h : processBlock env st adjustedTime block = .ok st') :
    Nonempty (AcceptSteps env st block st') := by
  unfold processBlock checkBlock connectBlock at h
  simp only [bind_eq_ok, rejectIf_eq_ok, pure_eq_ok, exists_const, not_not] at h
  obtain ⟨_, ⟨-, _, hsane, -, _, hprevKey, _, -, hcontext⟩, final, hcheck, hjournal, stakeNode,
    hnode, rfl⟩ := h
  obtain ⟨check, -⟩ := exists_checkSteps_of_checkConnectBlock hcheck
  exact ⟨⟨saneBlock_of_checkBlockSanity hsane, hprevKey, hcontext, final, check, hjournal,
    stakeNode, hnode, rfl⟩⟩

end Hcashd.Blockchain
