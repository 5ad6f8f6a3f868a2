import Hcashd.Blockchain.Checked

/-!
# The run over a tree

The loop of `checkTransactionsAndConnect`: each transaction is checked against the view that the
transactions before it have left, and connected (`TreeRun`).
-/

namespace Hcashd.Blockchain

open Lib Stake List

variable {env : Env} {ctx : TreeContext} {s s' : TreeState}

variable (env) in
/-- What the step of `checkTransactionsAndConnect` for one transaction establishes. -/
structure TreeStep (ctx : TreeContext) (s : TreeState) (tx : MsgTx) (idx : ℕ) (s' : TreeState) :
    Prop where
  sigOps : checkNumSigOps env tx s.conn.view (ctx.isCoinbaseAt idx) s.sigOps = .ok s'.sigOps
  checked : ∃ fees, ctx.checkInputs env s.conn.view tx = .ok fees ∧
    s'.totalFees = int64 (s.totalFees + fees.txFees) ∧ s.totalFees ≤ s'.totalFees
  connected : connectTransaction env s.conn tx ctx.node.height idx = .ok s'.conn

/-- A turn of the loop is a step. -/
theorem treeStep_of_checkAndConnectTx {tx : MsgTx} {idx : ℕ}
    (h : ctx.checkAndConnectTx env s tx idx = .ok s') : TreeStep env ctx s tx idx s' := by
  unfold TreeContext.checkAndConnectTx at h
  simp only [bind_eq_ok, rejectIf_eq_ok, pure_eq_ok, exists_const, not_lt] at h
  obtain ⟨sigOps, hsig, fees, hfees, hle, conn, hconn, rfl⟩ := h
  exact ⟨hsig, ⟨fees, hfees, rfl, hle⟩, hconn⟩

variable (env) in
/-- The loop of `checkTransactionsAndConnect` over transactions, the first of which has the index
`k`. -/
inductive TreeRun (ctx : TreeContext) : ℕ → List MsgTx → TreeState → TreeState → Prop
  | nil {k : ℕ} {s : TreeState} : TreeRun ctx k [] s s
  | cons {k : ℕ} {tx : MsgTx} {txs : List MsgTx} {s s₁ s' : TreeState} :
    TreeStep env ctx s tx k s₁ → TreeRun ctx (k + 1) txs s₁ s' → TreeRun ctx k (tx :: txs) s s'

/-- The loop is a run. -/
theorem treeRun_of_foldlM {txs : List MsgTx} {k : ℕ}
    (h : (txs.zipIdx k).foldlM (fun s (tx, idx) => ctx.checkAndConnectTx env s tx idx) s = .ok s') :
    TreeRun env ctx k txs s s' := by
  induction txs generalizing k s with
  | nil => exact foldlM_nil_eq_ok.1 h ▸ .nil
  | cons tx txs ih =>
    obtain ⟨s₁, h1, h⟩ := foldlM_cons_eq_ok.1 h
    exact .cons (treeStep_of_checkAndConnectTx h1) (ih h)

/-- Inputs are always checked. -/
theorem TreeContext.flag_ne_noCheck (ctx : TreeContext) : ctx.flag ≠ .noCheck := by
  unfold flag
  split_ifs <;> decide

namespace TreeStep

variable {tx : MsgTx} {idx : ℕ}

theorem checkedTx (h : TreeStep env ctx s tx idx s') (hcb : isCoinBaseTx tx = false) :
    ∃ fees, CheckedTx env s.conn.view tx fees ∧ s'.totalFees = int64 (s.totalFees + fees.txFees) ∧
      s.totalFees ≤ s'.totalFees := by
  obtain ⟨fees, hfees, htotal, hle⟩ := h.checked
  exact ⟨fees, checkedTx_of_checkTransactionInputs ctx.flag_ne_noCheck hcb hfees, htotal, hle⟩

theorem checkedInput_of_mem (h : TreeStep env ctx s tx idx s') {o : Place}
    (ho : o ∈ spentPlaces env tx) : ∃ txIn ∈ spendingInputs env tx, placeOf txIn = o ∧
      CheckedInput env s.conn.view txIn := by
  cases hcb : isCoinBaseTx tx with
  | true =>
    rw [spentPlaces, if_pos hcb] at ho
    cases ho
  | false =>
    obtain ⟨fees, hchecked, -⟩ := h.checkedTx hcb
    exact hchecked.checkedInput_of_mem ho

end TreeStep

section Types

variable {tx : MsgTx}

theorem isStakeTx_eq_false (h : txType env tx = .regular) : isStakeTx env tx = false := by
  unfold txType determineTxType at h
  unfold isStakeTx isSStx isSSGen isSSRtx
  split_ifs at h
  simp_all

theorem isSSGen_eq_false (h : txType env tx = .regular) : isSSGen env tx = false := by
  have hstake := isStakeTx_eq_false h
  simp only [isStakeTx, Bool.or_eq_false_iff] at hstake
  exact hstake.1.2

/-- A regular transaction spends all its inputs. -/
theorem spendingInputs_eq (h : txType env tx = .regular) : spendingInputs env tx = tx.txIn := by
  rw [spendingInputs, isSSGen_eq_false h]
  rfl

/-- A coinbase is no vote: it has one input. -/
theorem isSSGen_of_isCoinBaseTx (env : Env) (h : isCoinBaseTx tx = true) :
    isSSGen env tx = false := by
  unfold isCoinBaseTx at h
  split at h
  · rename_i txIn hin
    simp [isSSGen, Stake.isSSGen, hin, NumInputsPerSSGen]
  · cases h

end Types

end Hcashd.Blockchain
