import Hcashd.Blockchain.Connect
import Hcashd.Blockchain.Unspent

/-!
# What the checks of a transaction establish

One theorem for each check that a transaction goes through: `CheckTransactionSanity` gives `SaneTx`,
the loop of `CheckTransactionInputs` over the inputs gives `CheckedInput` for each of them, and the
two together say what a transaction takes and what it pays, in exact arithmetic.
-/

namespace Hcashd.Blockchain

open Lib Stake List

variable {env : Env}

/-- What a transaction pays. -/
def MsgTx.valueOut (tx : MsgTx) : ℤ := (tx.txOut.map TxOut.value).sum

variable (env) in
/-- The amounts of a transaction as `CheckTransactionSanity` wants them. -/
structure SaneAmounts (tx : MsgTx) : Prop where
  values : ∀ out ∈ tx.txOut, 0 ≤ out.value ∧ out.value ≤ env.maxAmount
  total : MsgTx.valueOut tx ≤ env.maxAmount

variable (env) in
/-- What `CheckTransactionSanity` establishes. -/
structure SaneTx (tx : MsgTx) : Prop extends SaneAmounts env tx where
  nodup : (tx.txIn.map TxIn.previousOutPoint).Nodup
  size : env.txSize tx ≤ env.params.maxTxSize

/-- One output: its amount and the sum are in range. -/
theorem addOutputAmount_eq_ok {t t' : ℤ} {out : TxOut} (h0 : 0 ≤ t) (ht : t ≤ env.maxAmount) :
    addOutputAmount env t out = .ok t' ↔ (0 ≤ out.value ∧ out.value ≤ env.maxAmount) ∧
    t + out.value ≤ env.maxAmount ∧
        t' = t + out.value := by
  have hmax := env.maxAmount_lt
  unfold addOutputAmount
  simp only [bind_eq_ok, rejectIf_eq_ok, pure_eq_ok, not_lt, exists_const]
  constructor
  · rintro ⟨hv, hle, hnonneg, htotal, rfl⟩
    rw [int64_of_range (by omega) (by omega)] at *
    exact ⟨⟨hv, hle⟩, htotal, rfl⟩
  · rintro ⟨⟨hv, hle⟩, htotal, rfl⟩
    rw [int64_of_range (by omega) (by omega)]
    exact ⟨hv, hle, by omega, htotal, rfl⟩

/-- All outputs of a transaction, from any sum in range. -/
theorem foldlM_addOutputAmount {outs : List TxOut} {t : ℤ} (h0 : 0 ≤ t) (ht : t ≤ env.maxAmount) :
    (∃ t', outs.foldlM (addOutputAmount env) t = .ok t') ↔
    (∀ out ∈ outs, 0 ≤ out.value ∧ out.value ≤ env.maxAmount) ∧
        t + (outs.map TxOut.value).sum ≤ env.maxAmount := by
  induction outs generalizing t with
  | nil => simp [ht]
  | cons out outs ih =>
    simp only [foldlM_cons_eq_ok, forall_mem_cons, map_cons, sum_cons, addOutputAmount_eq_ok h0 ht]
    constructor
    · rintro ⟨_, _, ⟨hout, htotal, rfl⟩, hrest⟩
      obtain ⟨houts, hsum⟩ := (ih (by omega) htotal).1 ⟨_, hrest⟩
      exact ⟨⟨hout, houts⟩, by omega⟩
    · rintro ⟨⟨hout, houts⟩, hsum⟩
      have hnonneg : 0 ≤ (outs.map TxOut.value).sum := sum_nonneg fun v hv => by
        obtain ⟨o, ho, rfl⟩ := mem_map.1 hv
        exact (houts o ho).1
      obtain ⟨t', ht'⟩ := (ih (t := t + out.value) (by omega) (by omega)).2 ⟨houts, by omega⟩
      exact ⟨t', _, ⟨hout, by omega, rfl⟩, ht'⟩

/-- Sane amounts are those the loop accepts. -/
theorem saneAmounts_iff {tx : MsgTx} :
    SaneAmounts env tx ↔ ∃ t, tx.txOut.foldlM (addOutputAmount env) 0 = .ok t := by
  rw [foldlM_addOutputAmount le_rfl env.maxAmount_nonneg, zero_add]
  exact ⟨fun h => ⟨h.values, h.total⟩, fun ⟨h1, h2⟩ => ⟨h1, h2⟩⟩

/-- What `CheckTransactionSanity` establishes. -/
theorem saneTx_of_checkTransactionSanity {tx : MsgTx} (h : checkTransactionSanity env tx = .ok ⟨⟩) :
    SaneTx env tx := by
  unfold checkTransactionSanity at h
  simp only [bind_eq_ok, rejectIf_eq_ok, exists_const] at h
  obtain ⟨-, -, hsize, t, ht, _, -, hnodup⟩ := h
  exact ⟨saneAmounts_iff.2 ⟨t, ht⟩, not_not.1 hnodup, not_lt.1 hsize⟩

namespace SaneAmounts

variable {tx : MsgTx}

end SaneAmounts

variable (env) in
/-- What the loop of `CheckTransactionInputs` establishes for an input of a block: it refers to an
unspent output of the view, of the tree that it names and of the positive amount that it states. -/
structure CheckedInput (view : UtxoViewpoint) (txIn : TxIn) : Prop where
  origin : ∃ entry output, view.lookupEntry txIn.previousOutPoint.hash = some entry ∧
    entry.unspent txIn.previousOutPoint.index = some output ∧ output.amount = txIn.valueIn ∧
    txIn.previousOutPoint.tree = indicatedTree entry.txType
  pos : 0 < txIn.valueIn
  le : txIn.valueIn ≤ env.maxAmount

namespace CheckedInput

variable {view : UtxoViewpoint} {txIn : TxIn}

theorem unspentAt (h : CheckedInput env view txIn) (db : UtxoSet) :
    ∃ output, unspentAt db view (placeOf txIn) = some output ∧ output.amount = txIn.valueIn := by
  obtain ⟨entry, output, hentry, houtput, hamount, -⟩ := h.origin
  refine ⟨output, ?_, hamount⟩
  rw [Blockchain.unspentAt, placeOf, entryOf_of_lookupEntry hentry, Option.bind_some, houtput]

end CheckedInput

section Inputs

variable {keyHeightByHeight : ℕ → Except Err ℤ} {view : UtxoViewpoint} {txHeight : ℕ}
  {txKeyHeight : ℤ} {flag : FraudProofCheck} {tx : MsgTx}

/-- What `CheckTransactionInputs` establishes for one input. -/
theorem checkTxIn_spec {txIn : TxIn} {amount : ℤ} (hflag : flag ≠ .noCheck)
    (h : checkTxIn env keyHeightByHeight view txHeight txKeyHeight flag tx txIn = .ok amount) :
    CheckedInput env view txIn ∧ amount = txIn.valueIn := by
  unfold checkTxIn originEntry checkFraudProof at h
  simp only [bind_eq_ok, rejectIf_eq_ok, pure_eq_ok, exists_const] at h
  obtain ⟨entry, hentry, hzero, ⟨hvalue, -, -⟩, -, -, -, -, hspent, htree, -, -, -, hneg,
    hmax, rfl⟩ := h
  have hlookup : view.lookupEntry txIn.previousOutPoint.hash = some entry := by
    cases hview : view.lookupEntry txIn.previousOutPoint.hash with
    | none => rw [hview] at hentry; cases hentry
    | some e => rw [hview] at hentry; cases hentry; rfl
  obtain ⟨output, houtput⟩ := UtxoEntry.isOutputSpent_eq_false.1 (by simpa using hspent)
  have hamount := UtxoEntry.amountByIndex_of_unspent houtput
  have hvalue : txIn.valueIn = entry.amountByIndex txIn.previousOutPoint.index := by
    simpa [hflag] using hvalue
  refine ⟨⟨⟨entry, output, hlookup, houtput, by rw [← hamount, hvalue], ?_⟩, ?_, ?_⟩, hvalue.symm⟩
  · exact (not_not.1 htree).symm
  · omega
  · omega

/-- The step of the loop over the inputs. The test against the old total excludes that the new one
has wrapped around. -/
theorem addTxIn_spec {txIn : TxIn} {t total : ℤ} (hflag : flag ≠ .noCheck) (hl : -2^63 ≤ t)
    (hu : t ≤ 2^63)
    (h : addTxIn env keyHeightByHeight view txHeight txKeyHeight flag tx t txIn = .ok total) :
    CheckedInput env view txIn ∧ total = t + txIn.valueIn ∧ total ≤ env.maxAmount := by
  unfold addTxIn at h
  simp only [bind_eq_ok, rejectIf_eq_ok, pure_eq_ok, exists_const] at h
  obtain ⟨amount, hamount, htotal, rfl⟩ := h
  obtain ⟨hin, rfl⟩ := checkTxIn_spec hflag hamount
  have hpos := hin.pos
  have hle := hin.le
  have hmax := env.maxAmount_lt
  rw [not_or, not_lt, not_lt] at htotal
  have hexact := int64_add_of_le hl hu hpos.le (by omega) htotal.1
  rw [hexact] at htotal ⊢
  exact ⟨hin, rfl, htotal.2⟩

/-- The loop over the inputs adds up their amounts. -/
theorem foldlM_addTxIn_spec {inputs : List TxIn} {t total : ℤ} (hflag : flag ≠ .noCheck)
    (hl : -2^63 ≤ t) (hu : t ≤ 2^63)
    (h : inputs.foldlM (addTxIn env keyHeightByHeight view txHeight txKeyHeight flag tx) t =
      .ok total) :
    (∀ txIn ∈ inputs, CheckedInput env view txIn) ∧ total = t + (inputs.map TxIn.valueIn).sum ∧
      (inputs ≠ [] → total ≤ env.maxAmount) := by
  have hmax := env.maxAmount_lt
  induction inputs generalizing t with
  | nil =>
    rw [foldlM_nil_eq_ok] at h
    simp [h]
  | cons txIn inputs ih =>
    obtain ⟨t1, h1, h⟩ := foldlM_cons_eq_ok.1 h
    obtain ⟨hin, rfl, hle⟩ := addTxIn_spec hflag hl hu h1
    have hpos := hin.pos
    obtain ⟨hins, rfl, hle'⟩ := ih (by omega) (by omega) h
    refine ⟨forall_mem_cons.2 ⟨hin, hins⟩, ?_, fun _ => ?_⟩
    · rw [map_cons, sum_cons]
      omega
    · cases inputs with
      | nil => simpa using hle
      | cons txIn' inputs => exact hle' (cons_ne_nil _ _)

end Inputs

/-- The vote subsidy is a 64-bit number. -/
theorem calcStakeVoteSubsidy_range (env : Env) (keyHeight : ℤ) :
    -2^63 ≤ calcStakeVoteSubsidy env keyHeight ∧ calcStakeVoteSubsidy env keyHeight ≤ 2^63 := by
  unfold calcStakeVoteSubsidy subsidyShare
  generalize calcBlockSubsidy env keyHeight * env.params.stakeRewardProportion = x
  generalize int64 (env.params.totalSubsidyProportions * env.params.ticketsPerBlock) = n
  obtain ⟨hl, hu⟩ := int64_range x
  have habs : ((int64 x).tdiv n).natAbs ≤ (int64 x).natAbs := by
    rw [Int.natAbs_tdiv]
    exact Nat.div_le_self _ _
  omega

variable (env) in
/-- What the inputs of a transaction other than a stakebase say they are worth. -/
def valueIn (tx : MsgTx) : ℤ := ((spendingInputs env tx).map TxIn.valueIn).sum

variable (env) in
/-- What `CheckTransactionInputs` establishes for a transaction of a block that is no coinbase. -/
structure CheckedTx (view : UtxoViewpoint) (tx : MsgTx) (fees : TxFees) : Prop where
  inputs : ∀ txIn ∈ spendingInputs env tx, CheckedInput env view txIn
  out_le : totalAtomOut tx ≤ stakebaseAtomIn env tx + valueIn env tx
  in_le : spendingInputs env tx ≠ [] → stakebaseAtomIn env tx + valueIn env tx ≤ env.maxAmount
  fees_eq : fees = feesOf env tx (stakebaseAtomIn env tx + valueIn env tx)

section Transactions

variable {keyHeightByHeight : ℕ → Except Err ℤ} {view : UtxoViewpoint} {txHeight : ℕ}
  {txKeyHeight : ℤ} {flag : FraudProofCheck} {tx : MsgTx} {fees : TxFees}

/-- `CheckTransactionInputs` of a transaction that is no coinbase. -/
theorem checkedTx_of_checkTransactionInputs (hflag : flag ≠ .noCheck)
    (hcb : isCoinBaseTx tx = false)
    (h : checkTransactionInputs env keyHeightByHeight view txHeight txKeyHeight flag tx =
      .ok fees) :
    CheckedTx env view tx fees := by
  unfold checkTransactionInputs at h
  simp only [bind_eq_ok, rejectIf_eq_ok, hcb, pure_eq_ok, exists_const, Bool.false_eq_true,
    if_false] at h
  obtain ⟨-, _, -, total, htotal, _, -, hout, rfl⟩ := h
  have hrange : -2^63 ≤ stakebaseAtomIn env tx ∧ stakebaseAtomIn env tx ≤ 2^63 := by
    unfold stakebaseAtomIn
    split_ifs
    · exact calcStakeVoteSubsidy_range env _
    · norm_num
  obtain ⟨hins, rfl, hle⟩ := foldlM_addTxIn_spec hflag hrange.1 hrange.2 htotal
  exact ⟨hins, not_lt.1 hout, hle, rfl⟩

namespace CheckedTx

theorem checkedInput_of_mem (h : CheckedTx env view tx fees) {o : Place}
    (ho : o ∈ spentPlaces env tx) :
    ∃ txIn ∈ spendingInputs env tx, placeOf txIn = o ∧ CheckedInput env view txIn := by
  unfold spentPlaces at ho
  split_ifs at ho
  · cases ho
  · obtain ⟨txIn, hin, rfl⟩ := mem_map.1 ho
    exact ⟨txIn, hin, rfl, h.inputs txIn hin⟩

/-- Inputs that differ as outpoints differ as places: the tree of an outpoint is that of the
transaction which it refers to. -/
theorem nodup_places (h : CheckedTx env view tx fees)
    (hnodup : (tx.txIn.map TxIn.previousOutPoint).Nodup) :
    ((spendingInputs env tx).map placeOf).Nodup := by
  have hsub : (spendingInputs env tx).Sublist tx.txIn := by
    unfold spendingInputs
    split_ifs
    · exact tail_sublist _
    · exact Sublist.refl _
  have hnodup := (hsub.map TxIn.previousOutPoint).nodup hnodup
  rw [Nodup, pairwise_map] at hnodup ⊢
  refine hnodup.imp_of_mem fun {a b} ha hb hne heq => hne ?_
  obtain ⟨entry, _, hentry, -, -, htree⟩ := (h.inputs a ha).origin
  obtain ⟨entry', _, hentry', -, -, htree'⟩ := (h.inputs b hb).origin
  obtain ⟨hhash, hindex⟩ := Prod.ext_iff.1 heq
  dsimp only [placeOf] at hhash hindex
  rw [hhash, hentry'] at hentry
  cases hentry
  cases hout : a.previousOutPoint
  cases hout' : b.previousOutPoint
  simp_all

end CheckedTx

end Transactions

end Hcashd.Blockchain
