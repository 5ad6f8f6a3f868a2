import Hcashd.Script.Standard
import Hcashd.Stake.StakeTx

/-!
# Classifying transactions from the network

`stake/staketx.go` once more, with every index and slice expression of the source as a step that can
fail. A transaction is classified before anything else is known about it, and what a stake
transaction says is then read without further checks. `IsSSGen` reads a second output that it has
not counted, which panics for one kind of transaction and no other (`avoids_isSSGen`); the other two
never do. Where there is no panic the answers are those of `Stake.StakeTx`, and what is read after a
classification is there to be read.
-/

namespace Hcashd.Stake.Untrusted

open Lib Stake List

section Classes

variable (s : Txscript)

/-- The checks of `IsSStx` and `IsSSGen` that a script begins with `OP_RETURN` and the length of a
push. -/
def checkDataPush (minPush : ℕ) (code : StakeErrorCode) (script : List UInt8) :
    Except Err PUnit := do
  let pushLen ← index .panic (script.take 2) 1
  let opcode ← index .panic (script.take 2) 0
  rejectIf (opcode ≠ 0x6a ∨ ¬ (minPush ≤ pushLen.toNat ∧ pushLen.toNat ≤ MaxSingleBytePushLength))
    (.stake code)

/-- The check of `IsSStx` on an output that commits to a payout. -/
def checkCommitment (out : TxOut) : Except Err PUnit := do
  rejectIf (s.getScriptClass out.version out.pkScript ≠ .nullData) (.stake .sStxInvalidOutputs)
  rejectIf (out.pkScript.length < SStxPKHMinOutSize ∨ SStxPKHMaxOutSize < out.pkScript.length)
    (.stake .sStxInvalidOutputs)
  checkDataPush 0x1e .sStxInvalidOutputs out.pkScript

/-- The check of `IsSStx` on an output that returns change. -/
def checkChange (out : TxOut) : Except Err PUnit :=
  rejectIf (s.getScriptClass out.version out.pkScript ≠ .stakeSubChange)
    (.stake .sStxInvalidOutputs)

/-- The turn of the loop of `IsSStx` for an output. -/
def checkSStxOutput (outs : List TxOut) (outTxIndex : ℕ) : Except Err PUnit := do
  let out ← index .panic outs outTxIndex
  if outTxIndex % 2 = 0 then checkChange s out else checkCommitment s out

/-- `IsSStx`, with every access to a slice. -/
def isSStx (tx : MsgTx) : Except Err PUnit := do
  rejectIf (MaxInputsPerSStx < tx.txIn.length) (.stake .sStxTooManyInputs)
  rejectIf (MaxOutputsPerSStx < tx.txOut.length) (.stake .sStxTooManyOutputs)
  rejectIf (tx.txOut.length = 0) (.stake .sStxNoOutputs)
  tx.txOut.forM fun out =>
    rejectIf (out.version ≠ DefaultScriptVersion) (.stake .sStxInvalidOutputs)
  let submission ← index .panic tx.txOut 0
  rejectIf (s.getScriptClass submission.version submission.pkScript ≠ .stakeSubmission)
    (.stake .sStxInvalidOutputs)
  rejectIf (tx.txIn.length * 2 + 1 ≠ tx.txOut.length) (.stake .sStxInOutProportions)
  (range' 1 (tx.txOut.length - 1)).forM (checkSStxOutput s tx.txOut)

/-- The checks of `IsSSGen` on the output that refers to the block that is voted on. -/
def checkReference (out : TxOut) : Except Err PUnit := do
  rejectIf (s.getScriptClass out.version out.pkScript ≠ .nullData) (.stake .sSGenNoReference)
  rejectIf (out.pkScript.length ≠ SSGenBlockReferenceOutSize) (.stake .sSGenBadReference)
  rejectIf (out.pkScript.take 2 ≠ [0x6a, 0x28]) (.stake .sSGenBadReference)

/-- The checks of `IsSSGen` on the output with the vote bits. -/
def checkVotePush (out : TxOut) : Except Err PUnit := do
  rejectIf (s.getScriptClass out.version out.pkScript ≠ .nullData) (.stake .sSGenNoVotePush)
  rejectIf (out.pkScript.length < SSGenVoteBitsOutputMinSize ∨
    SSGenVoteBitsOutputMaxSize < out.pkScript.length)
    (.stake .sSGenBadVotePush)
  checkDataPush 0x02 .sSGenBadVotePush out.pkScript

/-- The check of `IsSSGen` on the inputs after the stakebase. -/
def checkTicketInput (txIn : TxIn) : Except Err PUnit := do
  rejectIf (txIn.previousOutPoint.index ≠ 0) (.stake .sSGenWrongIndex)
  rejectIf (txIn.previousOutPoint.tree ≠ TxTreeStake) (.stake .sSGenWrongTxTree)

/-- `IsSSGen`, with every access to a slice. -/
def isSSGen (tx : MsgTx) : Except Err PUnit := do
  rejectIf (tx.txIn.length ≠ NumInputsPerSSGen) (.stake .sSGenWrongNumInputs)
  rejectIf (MaxOutputsPerSSGen < tx.txOut.length) (.stake .sSGenTooManyOutputs)
  rejectIf (tx.txOut.length = 0) (.stake .sSGenNoOutputs)
  rejectIf (isStakeBase tx = false) (.stake .sSGenNoStakebase)
  tx.txIn.tail.forM checkTicketInput
  tx.txOut.forM fun out => rejectIf (out.version ≠ DefaultScriptVersion) (.stake .sSGenBadGenOuts)
  let zeroethOutput ← index .panic tx.txOut 0
  checkReference s zeroethOutput
  let firstOutput ← index .panic tx.txOut 1
  checkVotePush s firstOutput
  (tx.txOut.drop 2).forM fun out =>
    rejectIf (s.getScriptClass out.version out.pkScript ≠ .stakeGen) (.stake .sSGenBadGenOuts)

/-- `IsSSRtx`, with every access to a slice. -/
def isSSRtx (tx : MsgTx) : Except Err PUnit := do
  rejectIf (tx.txIn.length ≠ NumInputsPerSSRtx) (.stake .sSRtxWrongNumInputs)
  rejectIf (MaxOutputsPerSSRtx < tx.txOut.length) (.stake .sSRtxTooManyOutputs)
  rejectIf (tx.txOut.length = 0) (.stake .sSRtxNoOutputs)
  tx.txOut.forM fun out => rejectIf (out.version ≠ DefaultScriptVersion) (.stake .sSRtxBadOuts)
  tx.txIn.forM fun txIn =>
    rejectIf (txIn.previousOutPoint.tree ≠ TxTreeStake) (.stake .sSRtxWrongTxTree)
  tx.txOut.forM fun out =>
    rejectIf (s.getScriptClass out.version out.pkScript ≠ .stakeRevocation) (.stake .sSRtxBadOuts)

/-- `is, _ := …`: the answer without its error. -/
def answer : Except Err PUnit → Except Err Bool
  | .ok _ => .ok true
  | .error .panic => .error .panic
  | .error _ => .ok false

/-- `DetermineTxType`, with every access to a slice. -/
def determineTxType (tx : MsgTx) : Except Err TxType := do
  if ← answer (isSStx s tx) then pure .sStx
  else if ← answer (isSSGen s tx) then pure .sSGen
  else if ← answer (isSSRtx s tx) then pure .sSRtx
  else pure .regular

end Classes

/-! ## What a stake transaction says -/

/-- What the script of a commitment says, as `SStxStakeOutputInfo` reads it. -/
def sStxOutputInfo (pkScript : List UInt8) (changeAmount : ℤ) : Except Err SStxOutputInfo := do
  let amtEncoded ← slice .panic pkScript 22 30
  let address ← slice .panic pkScript 2 22
  let feeLimitBytes ← slice .panic pkScript 30 32
  let feeLimit := ofLeBytes feeLimitBytes
  pure {
    isP2SH := decide (2^63 ≤ ofLeBytes amtEncoded)
    address := address
    amount := ((ofLeBytes amtEncoded % 2^63 : ℕ) : ℤ)
    changeAmount := changeAmount
    voteRule := feeLimit &&& 0x0040 == 0x0040
    revocationRule := feeLimit &&& 0x4000 == 0x4000
    voteLimit := feeLimit &&& 0x003f
    revocationLimit := (feeLimit &&& 0x3f00) >>> 8 }

/-- The commitments after the first output of a ticket purchase. -/
def sStxCommitmentInfos : List TxOut → Except Err (List SStxOutputInfo)
  | [] => pure []
  | [commitment] => do
    let info ← sStxOutputInfo commitment.pkScript 0
    pure [info]
  | commitment :: change :: outs => do
    let info ← sStxOutputInfo commitment.pkScript change.value
    let infos ← sStxCommitmentInfos outs
    pure (info :: infos)

/-- `TxSStxStakeOutputInfo`, with every access to a slice. -/
def txSStxStakeOutputInfo (tx : MsgTx) : Except Err (List SStxOutputInfo) :=
  sStxCommitmentInfos tx.txOut.tail

/-- `SSGenBlockVotedOn`, with every access to a slice. -/
def sSGenBlockVotedOn (tx : MsgTx) : Except Err (Hash × ℕ × ℕ) := do
  let out ← index .panic tx.txOut 0
  let blockHash ← slice .panic out.pkScript 2 34
  let height ← slice .panic out.pkScript 34 38
  let keyHeight ← slice .panic out.pkScript 38 42
  pure (Hash.ofBytes blockHash, ofLeBytes height, ofLeBytes keyHeight)

/-- `SSGenVoteBits`, with every access to a slice. -/
def sSGenVoteBits (tx : MsgTx) : Except Err ℕ := do
  let out ← index .panic tx.txOut 1
  let voteBits ← slice .panic out.pkScript 2 4
  pure (ofLeBytes voteBits)

/-- `SSGenVersion`, with every access to a slice. -/
def sSGenVersion (tx : MsgTx) : Except Err ℕ := do
  let out ← index .panic tx.txOut 1
  if out.pkScript.length < 8 then pure 0
  else do
    let version ← slice .panic out.pkScript 4 8
    pure (ofLeBytes version)

/-- An error of the script package has no code here, and a panic stays one. -/
def orOther {α : Type} : Except Script.ScriptErr α → Except Err α
  | .ok a => .ok a
  | .error .panic => .error .panic
  | .error _ => .error .other

/-- The body of the loops of `TxSSGenStakeOutputInfo` and `TxSSRtxStakeOutputInfo`, for the class
that the outputs must have. -/
def stakePayout (u : Script.Hcashutil) (tagged : ScriptClass) (out : TxOut) :
    Except Err StakePayout := do
  let extracted ← orOther (Script.extractPkScriptAddrs u out.version out.pkScript)
  rejectIf (extracted.scriptClass ≠ tagged) .other
  let subClass ← orOther (Script.getStakeOutSubclass out.pkScript)
  rejectIf (subClass ≠ .pubKeyHash ∧ subClass ≠ .scriptHash) .other
  let addr ← index .panic extracted.addrs 0
  pure ⟨subClass == .scriptHash, addr, out.value⟩

/-- `TxSSGenStakeOutputInfo`. Slices for two outputs less than there are cannot be made where there
are fewer. -/
def txSSGenStakeOutputInfo (u : Script.Hcashutil) (tx : MsgTx) : Except Err (List StakePayout) := do
  rejectIf (tx.txOut.length < 2) .panic
  (tx.txOut.drop 2).mapM (stakePayout u .stakeGen)

/-- `TxSSRtxStakeOutputInfo`, with every access to a slice. -/
def txSSRtxStakeOutputInfo (u : Script.Hcashutil) (tx : MsgTx) : Except Err (List StakePayout) :=
  tx.txOut.mapM (stakePayout u .stakeRevocation)

/-! ## The panic of `IsSSGen` -/

section Panic

variable {s : Txscript} {tx : MsgTx}

/-- A vote with its stakebase and its ticket, whose only output refers to a block. -/
structure LoneReference (s : Txscript) (tx : MsgTx) : Prop where
  inputs : tx.txIn.length = NumInputsPerSSGen
  stakeBase : isStakeBase tx = true
  ticket : ∀ txIn ∈ tx.txIn.tail, checkTicketInput txIn = .ok ⟨⟩
  output : ∃ out, tx.txOut = [out] ∧ out.version = DefaultScriptVersion ∧
    checkReference s out = .ok ⟨⟩

theorem avoids_checkDataPush {minPush : ℕ} {code : StakeErrorCode} {script : List UInt8}
    (h : 2 ≤ script.length) :
    Avoids .panic (checkDataPush minPush code script) := by
  have hlength : (script.take 2).length = 2 := by rw [length_take]; omega
  rw [checkDataPush, index_of_lt (by omega), ok_bind, index_of_lt (by omega), ok_bind]
  exact avoids_rejectIf_of_ne (by simp)

theorem avoids_checkCommitment (out : TxOut) : Avoids .panic (checkCommitment s out) := by
  simp only [checkCommitment, ne_eq, reduceCtorEq, not_false_eq_true, avoids_rejectIf_bind]
  intro _ hsize
  refine avoids_checkDataPush ?_
  rw [SStxPKHMinOutSize] at hsize
  omega

theorem avoids_checkVotePush (out : TxOut) : Avoids .panic (checkVotePush s out) := by
  simp only [checkVotePush, ne_eq, reduceCtorEq, not_false_eq_true, avoids_rejectIf_bind]
  intro _ hsize
  refine avoids_checkDataPush ?_
  rw [SSGenVoteBitsOutputMinSize] at hsize
  omega

theorem avoids_checkSStxOutput {outs : List TxOut} {i : ℕ} (h : i < outs.length) :
    Avoids .panic (checkSStxOutput s outs i) := by
  rw [checkSStxOutput, index_of_lt h, ok_bind]
  split_ifs
  · exact avoids_rejectIf_of_ne (by simp)
  · exact avoids_checkCommitment _

/-- The ticket check never panics. -/
theorem avoids_isSStx (s : Txscript) (tx : MsgTx) : Avoids .panic (isSStx s tx) := by
  simp only [isSStx, ne_eq, reduceCtorEq, not_false_eq_true, avoids_rejectIf_bind]
  intro _ _ hsome
  refine avoids_bind.2 ⟨by simp, fun _ _ => ?_⟩
  rw [index_of_lt (by omega), ok_bind]
  simp only [ne_eq, reduceCtorEq, not_false_eq_true, avoids_rejectIf_bind]
  intro _ _
  refine avoids_forM_of_forall fun i hi => avoids_checkSStxOutput ?_
  rw [mem_range'_1] at hi
  omega

/-- The revocation check never panics. -/
theorem avoids_isSSRtx (s : Txscript) (tx : MsgTx) : Avoids .panic (isSSRtx s tx) := by
  simp [isSSRtx, avoids_bind]

/-- `IsSSGen` returns unless it looks for a second output where there is one. -/
theorem avoids_isSSGen : Avoids .panic (isSSGen s tx) ↔ ¬ LoneReference s tx := by
  constructor
  · rintro h ⟨hinputs, hbase, hticket, out, hout, hversion, hreference⟩
    refine h ?_
    have hinput : tx.txIn.tail.forM checkTicketInput = .ok ⟨⟩ := forM_eq_ok.2 hticket
    have hversions : tx.txOut.forM (fun out =>
        rejectIf (out.version ≠ DefaultScriptVersion) (Err.stake .sSGenBadGenOuts)) = .ok ⟨⟩ := by
      rw [forM_eq_ok, hout]
      simpa using hversion
    rw [isSSGen, rejectIf_bind (fun hne => hne hinputs),
      rejectIf_bind (by rw [hout, length_singleton]; decide), rejectIf_bind (by simp [hout]),
      rejectIf_bind (by simp [hbase]), hinput, ok_bind, hversions, ok_bind, hout]
    show (checkReference s out >>= fun _ => _) = _
    rw [hreference]
    rfl
  · intro hlone
    simp only [isSSGen, ne_eq, reduceCtorEq, not_false_eq_true, avoids_rejectIf_bind]
    intro hinputs _ hsome hbase
    refine avoids_bind.2
      ⟨avoids_forM_of_forall fun txIn _ => by simp [checkTicketInput], fun _ hticket => ?_⟩
    refine avoids_bind.2 ⟨by simp, fun _ hversions => ?_⟩
    rw [index_of_lt (by omega), ok_bind]
    refine avoids_bind.2 ⟨by simp [checkReference], fun _ hreference => ?_⟩
    have hsecond : 1 < tx.txOut.length := by
      by_contra hlength
      obtain ⟨out, hout⟩ := length_eq_one_iff.1 (show tx.txOut.length = 1 by omega)
      simp only [hout, getElem_cons_zero] at hreference
      simp only [forM_eq_ok, rejectIf_eq_ok, not_not] at hticket hversions
      refine hlone ⟨not_not.1 hinputs, by simpa using hbase, hticket, out, hout, ?_, hreference⟩
      exact hversions out (by rw [hout]; exact mem_singleton_self out)
    rw [index_of_lt hsecond, ok_bind]
    exact avoids_bind.2 ⟨avoids_checkVotePush _, fun _ _ => by simp⟩

theorem LoneReference.isSStx_ne_ok (h : LoneReference s tx) : isSStx s tx ≠ .ok ⟨⟩ := by
  obtain ⟨out, hout, -⟩ := h.output
  intro hok
  simp only [isSStx, bind_eq_ok, rejectIf_eq_ok, exists_const, not_not] at hok
  obtain ⟨-, -, -, _, -, _, -, -, hproportions, -⟩ := hok
  rw [h.inputs, hout, NumInputsPerSSGen] at hproportions
  cases hproportions

theorem avoids_answer {x : Except Err PUnit} : Avoids .panic (answer x) ↔ Avoids .panic x := by
  rcases x with e | ⟨⟩
  · cases e <;> simp [answer]
  · simp [answer]

/-- `DetermineTxType` panics on a lone reference only. -/
theorem avoids_determineTxType : Avoids .panic (determineTxType s tx) ↔ ¬ LoneReference s tx := by
  constructor
  · intro h hlone
    have hsstx : answer (isSStx s tx) = .ok false := by
      have hne := hlone.isSStx_ne_ok
      have havoids := avoids_isSStx s tx
      rcases hsstx : isSStx s tx with e | ⟨⟩
      · rw [hsstx] at havoids
        cases e <;> simp_all [answer]
      · exact absurd hsstx hne
    rw [determineTxType, hsstx, ok_bind, if_neg Bool.false_ne_true] at h
    exact avoids_isSSGen.1 (avoids_answer.1 (avoids_bind.1 h).1) hlone
  · intro hlone
    refine avoids_bind.2 ⟨avoids_answer.2 (avoids_isSStx s tx), fun sstx _ => ?_⟩
    split_ifs
    · exact avoids_pure _
    refine avoids_bind.2 ⟨avoids_answer.2 (avoids_isSSGen.2 hlone), fun ssgen _ => ?_⟩
    split_ifs
    · exact avoids_pure _
    refine avoids_bind.2 ⟨avoids_answer.2 (avoids_isSSRtx s tx), fun ssrtx _ => ?_⟩
    split_ifs <;> exact avoids_pure _

end Panic

/-! ## The answers -/

section Answers

variable {s : Txscript} {tx : MsgTx}

theorem checkDataPush_eq_ok {minPush : ℕ} {code : StakeErrorCode} {script : List UInt8}
    {x : PUnit} :
    checkDataPush minPush code script = .ok x ↔ isDataPush minPush script = true := by
  match script with
  | [] | [b] => simp [checkDataPush, index, isDataPush, bind, Except.bind]
  | b :: c :: rest =>
    rw [checkDataPush, index_of_lt (by simp), ok_bind, index_of_lt (by simp), ok_bind,
      rejectIf_eq_ok]
    simp [isDataPush, and_assoc]

variable {out : TxOut}

theorem checkCommitment_eq_ok : checkCommitment s out = .ok ⟨⟩ ↔ isSStxCommitment s out = true := by
  simp only [checkCommitment, isSStxCommitment, bind_eq_ok, rejectIf_eq_ok, exists_const,
    checkDataPush_eq_ok, not_not,
    not_or, not_lt, Bool.and_eq_true, beq_iff_eq, decide_eq_true_eq, and_assoc]

variable {outs : List TxOut}

theorem checkSStxOutput_of_odd {i : ℕ} (h : outs[i]? = some out) (hi : i % 2 ≠ 0) :
    checkSStxOutput s outs i = .ok ⟨⟩ ↔ isSStxCommitment s out = true := by
  rw [checkSStxOutput, index_eq_ok.2 h, ok_bind, if_neg hi, checkCommitment_eq_ok]

/-- The loop over the outputs of a ticket checks them in pairs. -/
theorem forM_checkSStxOutput (done outs : List TxOut) (hdone : done.length % 2 = 1) :
    (∀ i ∈ range' done.length outs.length, checkSStxOutput s (done ++ outs) i = .ok ⟨⟩) ↔
      sStxOutputPairs s outs = true := by
  fun_induction sStxOutputPairs s outs generalizing done with
  | case1 => simp
  | case2 commitment =>
    have hget : (done ++ [commitment])[done.length]? = some commitment := by simp
    simp [checkSStxOutput_of_odd hget (by omega)]
  | case3 commitment change outs ih =>
    have hcommitment :
        (done ++ commitment :: change :: outs)[done.length]? = some commitment := by simp
    have hchange : (done ++ commitment :: change :: outs)[done.length + 1]? = some change := by simp
    have hrest :=
      ih (done ++ [commitment, change])
        (by rw [length_append, length_cons, length_singleton]; omega)
    rw [append_assoc, length_append] at hrest
    rw [Bool.and_eq_true, Bool.and_eq_true, beq_iff_eq, ← hrest, length_cons, length_cons,
      range'_succ,
      range'_succ, forall_mem_cons, forall_mem_cons, checkSStxOutput_of_odd hcommitment (by omega),
      checkSStxOutput, index_eq_ok.2 hchange, ok_bind, if_pos (by omega), checkChange,
      rejectIf_eq_ok, not_not, and_assoc]
    rfl

/-- The transactions that the ticket check accepts. -/
theorem isSStx_eq_ok : isSStx s tx = .ok ⟨⟩ ↔ Stake.isSStx s tx = true := by
  rcases hout : tx.txOut with _ | ⟨submission, outs⟩
  · simp [isSStx, Stake.isSStx, hout]
  · have hloop := forM_checkSStxOutput (s := s) [submission] outs rfl
    rw [length_singleton, singleton_append] at hloop
    simp only [isSStx, Stake.isSStx, hout, bind_eq_ok, rejectIf_eq_ok, forM_eq_ok, index_eq_ok,
      exists_const, not_not,
      not_lt, Bool.and_eq_true, decide_eq_true_eq, beq_iff_eq, all_eq_true, getElem?_cons_zero,
      Option.some.injEq, exists_eq_left', length_cons, Nat.add_sub_cancel, hloop]
    tauto

/-- `IsSSGen` says what it does in `Stake.StakeTx`, where it says anything. -/
theorem isSSGen_eq_ok : isSSGen s tx = .ok ⟨⟩ ↔ Stake.isSSGen s tx = true := by
  have hticket : ∀ txIn, checkTicketInput txIn = .ok ⟨⟩ ↔
      txIn.previousOutPoint.index = 0 ∧ txIn.previousOutPoint.tree = TxTreeStake := by
    simp [checkTicketInput]
  simp only [isSSGen, Stake.isSSGen, bind_eq_ok, rejectIf_eq_ok, forM_eq_ok, index_eq_ok,
    exists_const, not_not, not_lt,
    Bool.and_eq_true, decide_eq_true_eq, beq_iff_eq, all_eq_true, hticket, Bool.not_eq_false]
  rcases hout : tx.txOut with _ | ⟨reference, _ | ⟨voteBits, payouts⟩⟩
  · simp [sSGenDataOutputs]
  · simp [sSGenDataOutputs]
  · simp only [sSGenDataOutputs, checkReference, checkVotePush, bind_eq_ok, rejectIf_eq_ok,
      exists_const, not_not,
      not_or, not_lt, checkDataPush_eq_ok, Bool.and_eq_true, decide_eq_true_eq, beq_iff_eq,
      all_eq_true, getElem?_cons_zero, getElem?_cons_succ, Option.some.injEq, exists_eq_left',
      drop_succ_cons, drop_zero, length_cons, Nat.add_eq_zero_iff, one_ne_zero, and_false,
      not_false_eq_true, true_and]
    tauto

/-- The transactions that the revocation check accepts. -/
theorem isSSRtx_eq_ok : isSSRtx s tx = .ok ⟨⟩ ↔ Stake.isSSRtx s tx = true := by
  simp only [isSSRtx, Stake.isSSRtx, bind_eq_ok, rejectIf_eq_ok, forM_eq_ok, exists_const,
    not_not, not_lt, Bool.and_eq_true, decide_eq_true_eq, beq_iff_eq, all_eq_true,
    length_eq_zero_iff, Bool.not_eq_true',
    isEmpty_eq_false_iff]
  tauto

theorem answer_eq {x : Except Err PUnit} {b : Bool} (havoids : Avoids .panic x)
    (h : x = .ok ⟨⟩ ↔ b = true) :
    answer x = .ok b := by
  rcases x with e | ⟨⟩
  · have hb : b = false := Bool.eq_false_iff.2 fun hb => absurd (h.2 hb) (by simp)
    rw [hb]
    cases e <;> simp_all [answer]
  · rw [h.1 rfl]
    rfl

/-- `DetermineTxType` says what it does in `Stake.StakeTx`, where `IsSSGen` does not panic. -/
theorem determineTxType_eq (h : ¬ LoneReference s tx) :
    determineTxType s tx = .ok (Stake.determineTxType s tx) := by
  rw [determineTxType, answer_eq (avoids_isSStx s tx) isSStx_eq_ok, ok_bind,
    answer_eq (avoids_isSSGen.2 h) isSSGen_eq_ok, answer_eq (avoids_isSSRtx s tx) isSSRtx_eq_ok,
    Stake.determineTxType]
  cases Stake.isSStx s tx <;> cases Stake.isSSGen s tx <;> cases Stake.isSSRtx s tx <;> rfl

/-! ## Reading after a classification -/

theorem sStxOutputInfo_of_le {pkScript : List UInt8} (h : SStxPKHMinOutSize ≤ pkScript.length)
    (changeAmount : ℤ) :
    sStxOutputInfo pkScript changeAmount = .ok (Stake.sStxOutputInfo pkScript changeAmount) := by
  rw [SStxPKHMinOutSize] at h
  rw [sStxOutputInfo, slice_of_le (by omega) (by omega), ok_bind,
    slice_of_le (by omega) (by omega), ok_bind,
    slice_of_le (by omega) (by omega), ok_bind, drop_take, drop_take, drop_take]
  rfl

theorem sStxCommitmentInfos_of_pairs (h : sStxOutputPairs s outs = true) :
    sStxCommitmentInfos outs = .ok (Stake.sStxCommitmentInfos outs) := by
  have hsize : ∀ out, isSStxCommitment s out = true → SStxPKHMinOutSize ≤ out.pkScript.length := by
    intro out hout
    simp only [isSStxCommitment, Bool.and_eq_true, decide_eq_true_eq] at hout
    exact hout.1.1.2
  fun_induction sStxOutputPairs s outs with
  | case1 => rfl
  | case2 commitment =>
    rw [sStxCommitmentInfos, sStxOutputInfo_of_le (hsize commitment h)]
    rfl
  | case3 commitment change outs ih =>
    rw [Bool.and_eq_true, Bool.and_eq_true] at h
    rw [sStxCommitmentInfos, sStxOutputInfo_of_le (hsize commitment h.1.1), ok_bind, ih h.2]
    rfl

/-- The outputs of a ticket are read without a panic. -/
theorem txSStxStakeOutputInfo_eq (h : Stake.isSStx s tx = true) :
    txSStxStakeOutputInfo tx = .ok (sStxStakeOutputInfo tx.txOut) := by
  rw [txSStxStakeOutputInfo, sStxStakeOutputInfo]
  refine sStxCommitmentInfos_of_pairs (s := s) ?_
  rw [Stake.isSStx] at h
  cases hout : tx.txOut with
  | nil =>
    rw [hout, Bool.and_eq_true] at h
    exact absurd h.2 Bool.false_ne_true
  | cons submission outs =>
    simp only [hout, Bool.and_eq_true] at h
    exact h.2.2

section

variable (h : Stake.isSSGen s tx = true)

include h

/-- The first outputs of a vote. -/
theorem exists_outputs_of_isSSGen : ∃ reference voteBits payouts,
    tx.txOut = reference :: voteBits :: payouts ∧
    reference.pkScript.length = SSGenBlockReferenceOutSize ∧
      SSGenVoteBitsOutputMinSize ≤ voteBits.pkScript.length ∧
      ∀ out ∈ payouts, s.getScriptClass out.version out.pkScript = .stakeGen := by
  rw [Stake.isSSGen, Bool.and_eq_true] at h
  match hout : tx.txOut with
  | [] | [reference] =>
    rw [hout] at h
    exact absurd h.2 Bool.false_ne_true
  | reference :: voteBits :: payouts =>
    rw [hout] at h
    simp only [sSGenDataOutputs, Bool.and_eq_true, beq_iff_eq, decide_eq_true_eq, all_eq_true] at h
    obtain ⟨-, ⟨⟨⟨⟨⟨⟨-, hlength⟩, -⟩, -⟩, hvote⟩, -⟩, -⟩, hpayouts⟩ := h
    exact ⟨reference, voteBits, payouts, rfl, hlength, hvote, hpayouts⟩

theorem sSGenBlockVotedOn_eq :
    sSGenBlockVotedOn tx = .ok (Stake.sSGenBlockVotedOn tx) := by
  obtain ⟨reference, voteBits, payouts, hout, hlength, -, -⟩ := exists_outputs_of_isSSGen h
  rw [SSGenBlockReferenceOutSize] at hlength
  rw [sSGenBlockVotedOn,
    index_eq_ok.2 (show tx.txOut[0]? = some reference by rw [hout]; rfl), ok_bind,
    slice_of_le (by omega) (by omega), ok_bind, slice_of_le (by omega) (by omega), ok_bind,
    slice_of_le (by omega) (by omega), ok_bind, drop_take, drop_take, drop_take,
    Stake.sSGenBlockVotedOn, hout]
  simp [Hash.ofBytes, take_take, pure, Except.pure]

theorem sSGenVoteBits_eq : sSGenVoteBits tx = .ok (Stake.sSGenVoteBits tx) := by
  obtain ⟨reference, voteBits, payouts, hout, -, hlength, -⟩ := exists_outputs_of_isSSGen h
  rw [SSGenVoteBitsOutputMinSize] at hlength
  have hsecond : tx.txOut[1]? = some voteBits := by rw [hout]; rfl
  rw [sSGenVoteBits, index_eq_ok.2 hsecond, ok_bind, slice_of_le (by omega) (by omega), ok_bind,
    drop_take, Stake.sSGenVoteBits, hsecond]
  rfl

theorem sSGenVersion_eq : sSGenVersion tx = .ok (Stake.sSGenVersion tx) := by
  obtain ⟨reference, voteBits, payouts, hout, -, hlength, -⟩ := exists_outputs_of_isSSGen h
  have hsecond : tx.txOut[1]? = some voteBits := by rw [hout]; rfl
  rw [sSGenVersion, index_eq_ok.2 hsecond, ok_bind, Stake.sSGenVersion, hsecond]
  by_cases hshort : voteBits.pkScript.length < 8
  · rw [if_pos hshort]
    exact (congrArg Except.ok (if_pos hshort)).symm
  · rw [if_neg hshort, slice_of_le (by omega) (by omega), ok_bind, drop_take]
    exact (congrArg Except.ok (if_neg hshort)).symm

end

/-- The payouts of a stake transaction are read without a panic. -/
theorem avoids_stakePayout (u : Script.Hcashutil) {tagged : ScriptClass}
    (htagged : Script.isStakeClass tagged = true)
    (hclass : Script.getScriptClass out.version out.pkScript = tagged) :
    Avoids .panic (stakePayout u tagged out) := by
  obtain ⟨hversion, pops, hpops, rfl⟩ : out.version = DefaultScriptVersion ∧
      ∃ pops, Script.parseScript out.pkScript = (pops, none) ∧
      Script.typeOfScript pops = tagged := by
    unfold Script.getScriptClass at hclass
    split_ifs at hclass with hversion
    · rw [← hclass] at htagged
      cases htagged
    · split at hclass
      · exact ⟨not_not.1 hversion, _, Script.parsed_eq_ok.1 ‹_›, hclass⟩
      · rw [← hclass] at htagged
        cases htagged
  obtain ⟨addr, haddr⟩ := Script.extractPkScriptAddrs_of_stake u hpops htagged
  obtain ⟨subClass, hsub, -⟩ := Script.getStakeOutSubclass_of_stake hpops htagged
  rw [stakePayout, hversion, haddr, orOther, ok_bind, avoids_rejectIf_bind (by simp)]
  intro _
  rw [hsub, orOther, ok_bind, avoids_rejectIf_bind (by simp)]
  intro _
  rw [index_of_lt (by simp), ok_bind]
  exact avoids_pure _

end Answers

/-! ## Transactions that nothing is known about -/

/-- A transaction is classified, and what it says is read after that, without an access out of
range. -/
structure SafelyClassified (u : Script.Hcashutil) (other : Txscript) (tx : MsgTx) : Prop where
  isSStx : Avoids .panic (isSStx (u.txscript other) tx)
  isSSGen : Avoids .panic (isSSGen (u.txscript other) tx)
  isSSRtx : Avoids .panic (isSSRtx (u.txscript other) tx)
  determineTxType : Avoids .panic (determineTxType (u.txscript other) tx)
  readSStx : Untrusted.isSStx (u.txscript other) tx = .ok ⟨⟩ →
    Avoids .panic (txSStxStakeOutputInfo tx)
  readSSGen : Untrusted.isSSGen (u.txscript other) tx = .ok ⟨⟩ →
    Avoids .panic (sSGenBlockVotedOn tx) ∧ Avoids .panic (sSGenVoteBits tx) ∧
    Avoids .panic (sSGenVersion tx) ∧
      Avoids .panic (txSSGenStakeOutputInfo u tx)
  readSSRtx : Untrusted.isSSRtx (u.txscript other) tx = .ok ⟨⟩ →
    Avoids .panic (txSSRtxStakeOutputInfo u tx)

/-- A stakebase and a ticket as the inputs, and a push of forty bytes after `OP_RETURN` as the only
output. -/
def VoteWithoutBits (tx : MsgTx) : Prop :=
  ∃ stakebase ticket reference data, tx.txIn = [stakebase, ticket] ∧ tx.txOut = [reference] ∧
    isNullOutpoint stakebase.previousOutPoint = true ∧ isNullFraudProof stakebase = true ∧
    ticket.previousOutPoint.index = 0 ∧ ticket.previousOutPoint.tree = TxTreeStake ∧
    reference.version = DefaultScriptVersion ∧ reference.pkScript = 0x6a :: 0x28 :: data ∧
    data.length = 40

section Main

variable (u : Script.Hcashutil) (other : Txscript) (tx : MsgTx)

theorem checkReference_eq_ok {reference : TxOut}
    (hversion : reference.version = DefaultScriptVersion) :
    checkReference (u.txscript other) reference = .ok ⟨⟩ ↔
      ∃ data, reference.pkScript = 0x6a :: 0x28 :: data ∧ data.length = 40 := by
  simp only [checkReference, bind_eq_ok, rejectIf_eq_ok, exists_const, not_not,
    Script.getScriptClass_txscript, hversion]
  constructor
  · rintro ⟨-, hlength, htake⟩
    refine ⟨reference.pkScript.drop 2, ?_, ?_⟩
    · have hsplit := take_append_drop 2 reference.pkScript
      rw [htake] at hsplit
      exact hsplit.symm
    · rw [length_drop, hlength]
      rfl
  · rintro ⟨data, hscript, hlength⟩
    rw [hscript]
    refine ⟨Script.getScriptClass_return (by decide) hlength (by omega), ?_, rfl⟩
    rw [length_cons, length_cons, hlength]
    rfl

/-- A lone reference is a vote without vote bits. -/
theorem loneReference_iff : LoneReference (u.txscript other) tx ↔ VoteWithoutBits tx := by
  constructor
  · rintro ⟨hinputs, hbase, hticket, reference, hout, hversion, hreference⟩
    obtain ⟨stakebase, ticket, hin⟩ := length_eq_two.1 hinputs
    obtain ⟨data, hscript, hlength⟩ := (checkReference_eq_ok u other hversion).1 hreference
    simp only [isStakeBase, hin, Bool.and_eq_true] at hbase
    simp only [hin, tail_cons, mem_singleton, forall_eq, checkTicketInput, bind_eq_ok,
      rejectIf_eq_ok, exists_const, not_not] at hticket
    exact ⟨stakebase, ticket, reference, data, hin, hout, hbase.1, hbase.2, hticket.1, hticket.2,
      hversion, hscript, hlength⟩
  · rintro ⟨stakebase, ticket, reference, data, hin, hout, hnull, hproof, hindex, htree, hversion,
      hscript, hlength⟩
    refine ⟨by rw [hin]; rfl, by simp [isStakeBase, hin, hnull, hproof], ?_, reference, hout,
      hversion, ?_⟩
    · simp [hin, checkTicketInput, hindex, htree]
    · exact (checkReference_eq_ok u other hversion).2 ⟨data, hscript, hlength⟩

/-- The transactions that are classified and read without a panic. -/
theorem safelyClassified_iff_not_voteWithoutBits :
    SafelyClassified u other tx ↔ ¬ VoteWithoutBits tx := by
  rw [← loneReference_iff u other]
  constructor
  · exact fun h => avoids_isSSGen.1 h.isSSGen
  · intro h
    refine ⟨avoids_isSStx _ _, avoids_isSSGen.2 h, avoids_isSSRtx _ _, avoids_determineTxType.2 h,
      fun hsstx => ?_, fun hssgen => ?_, fun hssrtx => ?_⟩
    · rw [txSStxStakeOutputInfo_eq (isSStx_eq_ok.1 hsstx)]
      exact avoids_ok _
    · have hvote := isSSGen_eq_ok.1 hssgen
      obtain ⟨reference, voteBits, payouts, hout, -, -, hpayouts⟩ := exists_outputs_of_isSSGen hvote
      rw [sSGenBlockVotedOn_eq hvote, sSGenVoteBits_eq hvote, sSGenVersion_eq hvote]
      refine ⟨avoids_ok _, avoids_ok _, avoids_ok _,
        avoids_bind.2 ⟨avoids_rejectIf.2 fun hshort => ?_, fun _ _ => ?_⟩⟩
      · rw [hout] at hshort
        simp at hshort
      · refine avoids_mapM_of_forall fun out hmem => avoids_stakePayout u rfl ?_
        rw [hout] at hmem
        rw [← Script.getScriptClass_txscript u other]
        exact hpayouts out hmem
    · have hrevocation := isSSRtx_eq_ok.1 hssrtx
      simp only [Stake.isSSRtx, Bool.and_eq_true, all_eq_true, beq_iff_eq] at hrevocation
      refine avoids_mapM_of_forall fun out hmem => avoids_stakePayout u rfl ?_
      rw [← Script.getScriptClass_txscript u other]
      exact hrevocation.2 out hmem

end Main

/-- Every hash and every key is its own address. -/
def sampleHcashutil : Script.Hcashutil where
  newAddressPubKeyHash := fun hash _ => some hash
  newAddressScriptHashFromHash := some
  newAddressSecpPubKeyCompressed := some
  newAddressAltPubKey := fun _ key => some key
  isSome_newAddressPubKeyHash := fun _ _ => rfl
  isSome_newAddressScriptHashFromHash := fun _ _ => rfl

/-- Answers that are not asked for here. -/
def sampleTxscript : Txscript :=
  ⟨fun _ => true, fun _ => .nonStandard, fun _ => .nonStandard, fun _ => false, fun _ =>
    false, id, fun _ => [], fun _ => 0, fun _ _ => 0, fun _ _ _ _ => true⟩

/-- A vote that ends after the block that it is on. -/
def sampleVoteWithoutBits : MsgTx where
  version := 1
  txIn := [⟨⟨0, MaxPrevOutIndex, TxTreeRegular⟩, 0, 0, NullBlockHeight, NullBlockIndex, []⟩,
    ⟨⟨1, 0, TxTreeStake⟩, 0, 0, 0, 0, []⟩]
  txOut := [⟨0, 0, 0x6a :: 0x28 :: replicate 40 7⟩]
  lockTime := 0
  expiry := 0

/-- The second output of the transaction is read, which has one. -/
theorem determineTxType_sampleVoteWithoutBits :
    isSSGen (sampleHcashutil.txscript sampleTxscript) sampleVoteWithoutBits = .error .panic ∧
      determineTxType (sampleHcashutil.txscript sampleTxscript) sampleVoteWithoutBits =
        .error .panic := by
  decide +kernel

end Hcashd.Stake.Untrusted
