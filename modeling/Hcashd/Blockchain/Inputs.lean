import Hcashd.Blockchain.Subsidy
import Hcashd.Blockchain.Utxo

/-!
# The inputs of a transaction

`CheckTransactionInputs` of `validate.go`: what a transaction spends exists, is unspent and mature
and is worth what the transaction says, a stake transaction pays what the rules of staking
prescribe, and the outputs do not exceed the inputs. The result is the fees of the transaction.
Output values are added up without checks: their range is the business of `CheckTransactionSanity`.
-/

namespace Hcashd.Blockchain

open Lib Stake

/-- Which fraud proofs of the inputs are checked. -/
inductive FraudProofCheck
  | noCheck | keyBlockCheck | microBlockCheck
  deriving DecidableEq, Repr

/-- `CheckTransactionInputs` returns three amounts: the whole fee, and the fee of a regular and of a
stake transaction. -/
structure TxFees where
  txFeeInAtom : ℤ
  txFees : ℤ
  stakeFees : ℤ
  deriving DecidableEq, Repr

variable (env : Env)

/-- The entry of the transaction that an input refers to. -/
def originEntry (view : UtxoViewpoint) (txIn : TxIn) : Except Err UtxoEntry :=
  match view.lookupEntry txIn.previousOutPoint.hash with
  | none => .error (.rule .missingTx)
  | some entry => .ok entry

/-- The class of an output's script, under its stake tag if it has one. -/
def payeeClass (version : ℕ) (pkScript : List UInt8) : ScriptClass :=
  if env.script.isStakeOutput pkScript then env.script.typeOfSubscript pkScript
  else env.script.getScriptClass version pkScript

/-- The loop over the inputs of a ticket purchase: the amount of one of them. -/
def sStxInputAmount (view : UtxoViewpoint) (txIn : TxIn) : Except Err ℤ := do
  let entry ← originEntry view txIn
  let i := txIn.previousOutPoint.index
  rejectIf (entry.isOutputSpent i) (Err.rule .doubleSpend)
  let scriptClass := payeeClass env (entry.scriptVersionByIndex i) (entry.pkScriptByIndex i)
  rejectIf (scriptClass ≠ .pubKeyHash ∧ scriptClass ≠ .scriptHash) (Err.rule .sStxInScrType)
  pure (entry.amountByIndex i)

/-- What `CheckTransactionInputs` asks of a ticket purchase: its commitments are what its inputs put
in, less the change. -/
def checkSStxInputs (view : UtxoViewpoint) (tx : MsgTx) : Except Err PUnit := do
  let sstxInAmts ← tx.txIn.mapM (sStxInputAmount env view)
  let infos := sStxStakeOutputInfo tx.txOut
  let outAmtCalc ← sStxNullOutputAmounts sstxInAmts (infos.map SStxOutputInfo.changeAmount)
    ((tx.txOut.head?.map TxOut.value).getD 0)
  orRule .sStxCommitment (verifySStxAmounts (infos.map SStxOutputInfo.amount) outAmtCalc)

/-- The checks that a vote and a revocation share: the ticket is old enough, its first output is
tagged, and the payouts are what its commitments allow with a subsidy. -/
def checkTicketSpend (entry : UtxoEntry) (payouts : List StakePayout) (isVote : Bool) (subsidy : ℤ)
    (payeesCode inputCode : ErrorCode) : Except Err PUnit := do
  let infos := sStxStakeOutputInfo entry.stakeExtra
  let calcAmts ← calculateRewards (infos.map SStxOutputInfo.amount) (entry.amountByIndex 0) subsidy
  orRule payeesCode (verifyStakingPkhsAndAmounts infos payouts calcAmts isVote)
  rejectIf (env.script.getScriptClass (entry.scriptVersionByIndex 0) (entry.pkScriptByIndex 0) ≠
    .stakeSubmission) (Err.rule inputCode)

section Context

variable (keyHeightByHeight : ℕ → Except Err ℤ) (view : UtxoViewpoint) (txHeight : ℕ)
  (txKeyHeight : ℤ)

/-- What `CheckTransactionInputs` asks of a vote. The subsidy is that of the key height which the
vote itself names. -/
def checkSSGenInputs (tx : MsgTx) : Except Err PUnit :=
  match tx.txIn with
  | nullIn :: sstxIn :: _ => do
    rejectIf (txKeyHeight < env.params.stakeEnabledHeight + 1) (Err.rule .invalidEarlyStakeTx)
    let stakeVoteSubsidy := calcStakeVoteSubsidy env (sSGenBlockVotedOn tx).2.2
    rejectIf (nullIn.valueIn ≠ stakeVoteSubsidy) (Err.rule .badStakebaseAmountIn)
    let entry ← originEntry view sstxIn
    rejectIf (entry.txType ≠ .sStx) (Err.rule .invalidSSGenInput)
    rejectIf (sstxIn.previousOutPoint.index ≠ 0) (Err.rule .invalidSSGenInput)
    rejectIf (entry.stakeExtra = []) Err.assertion
    let payouts ← orRule .sSGenPayeeOuts (txSSGenStakeOutputInfo env.script tx)
    rejectIf ((sStxStakeOutputInfo entry.stakeExtra).length ≠ payouts.length)
      (Err.rule .sSGenPayeeNum)
    checkTicketSpend env entry payouts true stakeVoteSubsidy .sSGenPayeeOuts .invalidSSGenInput
    let originKeyHeight ← keyHeightByHeight entry.height
    rejectIf (txKeyHeight - originKeyHeight ≤ env.params.ticketMaturity) (Err.rule .sStxInImmature)
  | _ => .error .panic

/-- What `CheckTransactionInputs` asks of a revocation. -/
def checkSSRtxInputs (tx : MsgTx) : Except Err PUnit :=
  match tx.txIn with
  | sstxIn :: _ => do
    rejectIf (txKeyHeight < env.params.stakeEnabledHeight + 2) (Err.rule .invalidEarlyStakeTx)
    let entry ← originEntry view sstxIn
    rejectIf (entry.txType ≠ .sStx) (Err.rule .invalidSSRtxInput)
    let payouts ← orRule .sSRtxPayees (txSSRtxStakeOutputInfo env.script tx)
    rejectIf ((sStxStakeOutputInfo entry.stakeExtra).length ≠ payouts.length)
      (Err.rule .sSRtxPayeesMismatch)
    checkTicketSpend env entry payouts false 0 .sSRtxPayees .invalidSSRtxInput
    let originKeyHeight ← keyHeightByHeight entry.height
    rejectIf (txKeyHeight - originKeyHeight ≤ env.params.ticketMaturity + 1)
      (Err.rule .sStxInImmature)
  | _ => .error .panic

/-- The fraud proof of an input: what it says about the output that it spends. In a micro block an
input from the block itself counts places from one. -/
def checkFraudProof (flag : FraudProofCheck) (entry : UtxoEntry) (txIn : TxIn) :
    Except Err PUnit := do
  let checked := flag ≠ .noCheck
  let blockIndex := if flag = .keyBlockCheck ∨ txIn.blockHeight ≠ txHeight then entry.index
    else u32 (entry.index + 1)
  rejectIf (checked ∧ txIn.valueIn ≠ entry.amountByIndex txIn.previousOutPoint.index)
    (Err.rule .fraudAmountIn)
  rejectIf (checked ∧ txIn.blockHeight ≠ entry.height) (Err.rule .fraudBlockHeight)
  rejectIf (checked ∧ txIn.blockIndex ≠ blockIndex) (Err.rule .fraudBlockIndex)

/-- The tree that the transactions of a type are in. -/
def indicatedTree (type : TxType) : ℤ := if type = .regular then TxTreeRegular else TxTreeStake

/-- The general checks of one input, with the amount that it spends. -/
def checkTxIn (flag : FraudProofCheck) (tx : MsgTx) (txIn : TxIn) : Except Err ℤ := do
  let entry ← originEntry view txIn
  let i := txIn.previousOutPoint.index
  let amount := entry.amountByIndex i
  let scriptClass :=
    env.script.getScriptClass (entry.scriptVersionByIndex i) (entry.pkScriptByIndex i)
  rejectIf (amount = 0) (Err.rule .zeroValueOutputSpend)
  checkFraudProof txHeight flag entry txIn
  let originKeyHeight ← keyHeightByHeight entry.height
  let blocksSincePrev := txKeyHeight - originKeyHeight
  rejectIf (entry.isCoinBase ∧ blocksSincePrev < env.params.coinbaseMaturity)
    (Err.rule .immatureSpend)
  rejectIf (entry.hasExpiry ∧ blocksSincePrev < env.params.coinbaseMaturity)
    (Err.rule .expiryTxSpentEarly)
  rejectIf (entry.isOutputSpent i) (Err.rule .doubleSpend)
  rejectIf (indicatedTree entry.txType ≠ txIn.previousOutPoint.tree) (Err.rule .discordantTxTree)
  rejectIf (isSSGen env tx = false ∧ isSSRtx env tx = false ∧ scriptClass = .stakeSubmission)
    (Err.rule .txSStxOutSpend)
  rejectIf ((scriptClass = .stakeGen ∨ scriptClass = .stakeRevocation) ∧
    blocksSincePrev < env.params.coinbaseMaturity) (Err.rule .immatureSpend)
  rejectIf (scriptClass = .stakeSubChange ∧ blocksSincePrev < env.params.sStxChangeMaturity)
    (Err.rule .immatureSpend)
  rejectIf (amount < 0) (Err.rule .badTxOutValue)
  rejectIf (env.maxAmount < amount) (Err.rule .badTxOutValue)
  pure amount

/-- A transaction of one of the three stake types. -/
def isStakeTx (tx : MsgTx) : Bool := isSStx env tx || isSSGen env tx || isSSRtx env tx

/-- The step of the loop over the inputs: the amount is added to the running total, which must not
leave its range. -/
def addTxIn (flag : FraudProofCheck) (tx : MsgTx) (totalAtomIn : ℤ) (txIn : TxIn) :
    Except Err ℤ := do
  let amount ← checkTxIn env keyHeightByHeight view txHeight txKeyHeight flag tx txIn
  let total := int64 (totalAtomIn + amount)
  rejectIf (total < totalAtomIn ∨ env.maxAmount < total) (Err.rule .badTxOutValue)
  pure total

/-- What the total of the inputs starts from: a vote's stakebase adds its reward. -/
def stakebaseAtomIn (tx : MsgTx) : ℤ :=
  if isSSGen env tx then calcStakeVoteSubsidy env (sSGenBlockVotedOn tx).2.2 else 0

/-- The check of one output: a transaction that is no stake transaction has no stake tags. -/
def checkTxOut (tx : MsgTx) (out : TxOut) : Except Err PUnit :=
  if isStakeTx env tx then pure ⟨⟩
  else do
    let scriptClass := env.script.getScriptClass out.version out.pkScript
    rejectIf (scriptClass = .stakeSubmission ∨ scriptClass = .stakeGen ∨
      scriptClass = .stakeRevocation ∨ scriptClass = .stakeSubChange) (Err.rule .regTxSpendStakeOut)
    let op ← orRule .scriptMalformed (env.script.containsStakeOpCodes out.pkScript)
    rejectIf op (Err.rule .scriptMalformed)

/-- The sum of the outputs of a transaction, in 64 bits. -/
def totalAtomOut (tx : MsgTx) : ℤ := tx.txOut.foldl (fun sum out => int64 (sum + out.value)) 0

/-- The stake checks of `CheckTransactionInputs`, by the type of the transaction. -/
def checkStakeInputs (tx : MsgTx) : Except Err PUnit :=
  if isSStx env tx then checkSStxInputs env view tx
  else if isSSGen env tx then checkSSGenInputs env keyHeightByHeight view txKeyHeight tx
  else if isSSRtx env tx then checkSSRtxInputs env keyHeightByHeight view txKeyHeight tx
  else pure ⟨⟩

/-- The three fees, from the totals. The fee of the two kinds not asked for is counted from zero,
and the outputs of a vote are not counted as stake outputs. -/
def feesOf (tx : MsgTx) (totalAtomIn : ℤ) : TxFees :=
  let out := totalAtomOut tx
  let atomIn := int64 (totalAtomIn - stakebaseAtomIn env tx)
  { txFeeInAtom := int64 (totalAtomIn - out)
    txFees := if isStakeTx env tx then 0 else int64 (totalAtomIn - out)
    stakeFees := if isStakeTx env tx = false then 0
      else if isSSGen env tx then atomIn else int64 (totalAtomIn - out) }

/-- `CheckTransactionInputs`: the inputs of a transaction against a view, and its fees. -/
def checkTransactionInputs (flag : FraudProofCheck) (tx : MsgTx) : Except Err TxFees := do
  rejectIf (tx.expiry ≠ NoExpiryValue ∧ (tx.expiry : ℤ) ≤ txKeyHeight) (Err.rule .expiredTx)
  if isCoinBaseTx tx then pure ⟨0, 0, 0⟩
  else do
    checkStakeInputs env keyHeightByHeight view txKeyHeight tx
    let totalAtomIn ← (spendingInputs env tx).foldlM
      (addTxIn env keyHeightByHeight view txHeight txKeyHeight flag tx) (stakebaseAtomIn env tx)
    tx.txOut.forM (checkTxOut env tx)
    rejectIf (totalAtomIn < totalAtomOut tx) (Err.rule .spendTooHigh)
    pure (feesOf env tx totalAtomIn)

end Context

end Hcashd.Blockchain
