import Hcashd.Lib.Result
import Hcashd.Txscript

/-!
# Stake transactions

`stake/staketx.go`: what makes a transaction a ticket purchase (`SStx`), a vote (`SSGen`) or a
revocation (`SSRtx`), what such a transaction says in its outputs, and how the payouts of a vote or
a revocation follow from the commitments of its ticket.
-/

namespace Hcashd.Stake

open Lib

/-- `TxType`: the kinds of transactions. -/
inductive TxType
  | regular | sStx | sSGen | sSRtx
  deriving DecidableEq, Repr

-- The limits of `stake/staketx.go`.
def MaxInputsPerSStx : ℕ := 64
def MaxOutputsPerSStx : ℕ := MaxInputsPerSStx * 2 + 1
def NumInputsPerSSGen : ℕ := 2
def MaxOutputsPerSSGen : ℕ := MaxInputsPerSStx + 2
def NumInputsPerSSRtx : ℕ := 1
def MaxOutputsPerSSRtx : ℕ := MaxInputsPerSStx
def SStxPKHMinOutSize : ℕ := 32
def SStxPKHMaxOutSize : ℕ := 77
def SSGenBlockReferenceOutSize : ℕ := 42
def SSGenVoteBitsOutputMinSize : ℕ := 4
def SSGenVoteBitsOutputMaxSize : ℕ := 77
def MaxSingleBytePushLength : ℕ := 75

/-- `isNullOutpoint` of `validate.go`, which the one of `staketx.go` applies to the first input. -/
def isNullOutpoint (outpoint : OutPoint) : Bool :=
  outpoint.index == MaxPrevOutIndex && outpoint.hash == 0 && outpoint.tree == TxTreeRegular

/-- `isNullFraudProof`: the input names no block. -/
def isNullFraudProof (txIn : TxIn) : Bool :=
  txIn.blockHeight == NullBlockHeight && txIn.blockIndex == NullBlockIndex

/-- `IsStakeBase`: the first of two inputs spends nothing. -/
def isStakeBase (tx : MsgTx) : Bool :=
  match tx.txIn with
  | [stakebase, _] => isNullOutpoint stakebase.previousOutPoint && isNullFraudProof stakebase
  | _ => false

/-- A script that begins with `OP_RETURN` and the length of a push of at least `minPush` bytes. -/
def isDataPush (minPush : ℕ) (script : List UInt8) : Bool :=
  match script with
  | opReturn :: pushLen :: _ =>
    opReturn == 0x6a && decide (minPush ≤ pushLen.toNat) &&
      decide (pushLen.toNat ≤ MaxSingleBytePushLength)
  | _ => false

section Classes

variable (s : Txscript)

/-- An output of a ticket purchase that commits to a payout. -/
def isSStxCommitment (out : TxOut) : Bool :=
  s.getScriptClass out.version out.pkScript == .nullData &&
    decide (SStxPKHMinOutSize ≤ out.pkScript.length) &&
    decide (out.pkScript.length ≤ SStxPKHMaxOutSize) && isDataPush 0x1e out.pkScript

/-- The outputs of a ticket purchase after the first: a commitment and its change, in turn. -/
def sStxOutputPairs : List TxOut → Bool
  | [] => true
  | [commitment] => isSStxCommitment s commitment
  | commitment :: change :: outs =>
    isSStxCommitment s commitment &&
      s.getScriptClass change.version change.pkScript == .stakeSubChange && sStxOutputPairs outs

/-- `IsSStx`: a purchase of a ticket. -/
def isSStx (tx : MsgTx) : Bool :=
  decide (tx.txIn.length ≤ MaxInputsPerSStx) && decide (tx.txOut.length ≤ MaxOutputsPerSStx) &&
    tx.txOut.all (fun out => out.version == DefaultScriptVersion) &&
    decide (tx.txIn.length * 2 + 1 = tx.txOut.length) &&
    (match tx.txOut with
      | [] => false
      | submission :: outs =>
        s.getScriptClass submission.version submission.pkScript == .stakeSubmission &&
          sStxOutputPairs s outs)

/-- The first two outputs of a vote: the block it votes on, and the vote bits. The source indexes
the second output without having counted the outputs; here a vote with a single output is no
vote. -/
def sSGenDataOutputs : List TxOut → Bool
  | reference :: voteBits :: payouts =>
    s.getScriptClass reference.version reference.pkScript == .nullData &&
      reference.pkScript.length == SSGenBlockReferenceOutSize &&
      reference.pkScript.take 2 == [0x6a, 0x28] &&
      s.getScriptClass voteBits.version voteBits.pkScript == .nullData &&
      decide (SSGenVoteBitsOutputMinSize ≤ voteBits.pkScript.length) &&
      decide (voteBits.pkScript.length ≤ SSGenVoteBitsOutputMaxSize) &&
      isDataPush 0x02 voteBits.pkScript &&
      payouts.all (fun out => s.getScriptClass out.version out.pkScript == .stakeGen)
  | _ => false

/-- `IsSSGen`: a vote. -/
def isSSGen (tx : MsgTx) : Bool :=
  tx.txIn.length == NumInputsPerSSGen && decide (tx.txOut.length ≤ MaxOutputsPerSSGen) &&
    isStakeBase tx && tx.txIn.tail.all (fun txIn =>
      txIn.previousOutPoint.index == 0 && txIn.previousOutPoint.tree == TxTreeStake) &&
    tx.txOut.all (fun out => out.version == DefaultScriptVersion) && sSGenDataOutputs s tx.txOut

/-- `IsSSRtx`. The index of the output that the revocation spends is not looked at. -/
def isSSRtx (tx : MsgTx) : Bool :=
  tx.txIn.length == NumInputsPerSSRtx && decide (tx.txOut.length ≤ MaxOutputsPerSSRtx) &&
    !tx.txOut.isEmpty && tx.txOut.all (fun out => out.version == DefaultScriptVersion) &&
    tx.txIn.all (fun txIn => txIn.previousOutPoint.tree == TxTreeStake) &&
    tx.txOut.all (fun out => s.getScriptClass out.version out.pkScript == .stakeRevocation)

/-- `DetermineTxType`: the kind of a transaction. -/
def determineTxType (tx : MsgTx) : TxType :=
  if isSStx s tx then .sStx
  else if isSSGen s tx then .sSGen
  else if isSSRtx s tx then .sSRtx
  else .regular

end Classes

/-- `SSGenBlockVotedOn`: the hash, the height and the key height of the block that a vote is on. The
source indexes the first output, which a vote has. -/
def sSGenBlockVotedOn (tx : MsgTx) : Hash × ℕ × ℕ :=
  let script := (tx.txOut.head?.map TxOut.pkScript).getD []
  (Hash.ofBytes (script.drop 2), ofLeBytes ((script.drop 34).take 4),
    ofLeBytes ((script.drop 38).take 4))

/-- `SSGenVoteBits`: the bits of a vote. -/
def sSGenVoteBits (tx : MsgTx) : ℕ :=
  ofLeBytes ((((tx.txOut[1]?.map TxOut.pkScript).getD []).drop 2).take 2)

/-- `SSGenVersion`: the four bytes after the vote bits, and zero where they are not there. -/
def sSGenVersion (tx : MsgTx) : ℕ :=
  let pkScript := (tx.txOut[1]?.map TxOut.pkScript).getD []
  if pkScript.length < 8 then 0 else ofLeBytes ((pkScript.drop 4).take 4)

/-- One commitment of a ticket purchase, as `SStxStakeOutputInfo` reads it: the payee, the amount
that was put in, the change that was taken out, and how much of the payout a vote and a revocation
may leave as a fee. -/
structure SStxOutputInfo where
  isP2SH : Bool
  address : List UInt8
  amount : ℤ
  changeAmount : ℤ
  voteRule : Bool
  revocationRule : Bool
  voteLimit : ℕ
  revocationLimit : ℕ
  deriving DecidableEq, Repr

/-- What the script of a commitment says. -/
def sStxOutputInfo (pkScript : List UInt8) (changeAmount : ℤ) : SStxOutputInfo :=
  let amtEncoded := ofLeBytes ((pkScript.drop 22).take 8)
  let feeLimit := ofLeBytes ((pkScript.drop 30).take 2)
  { isP2SH := decide (2^63 ≤ amtEncoded)
    address := (pkScript.drop 2).take 20
    amount := ((amtEncoded % 2^63 : ℕ) : ℤ)
    changeAmount := changeAmount
    voteRule := feeLimit &&& 0x0040 == 0x0040
    revocationRule := feeLimit &&& 0x4000 == 0x4000
    voteLimit := feeLimit &&& 0x003f
    revocationLimit := (feeLimit &&& 0x3f00) >>> 8 }

/-- The commitments after the first output of a ticket purchase. -/
def sStxCommitmentInfos : List TxOut → List SStxOutputInfo
  | [] => []
  | [commitment] => [sStxOutputInfo commitment.pkScript 0]
  | commitment :: change :: outs =>
    sStxOutputInfo commitment.pkScript change.value :: sStxCommitmentInfos outs

/-- `SStxStakeOutputInfo`: what a ticket commits to pay. -/
def sStxStakeOutputInfo (outs : List TxOut) : List SStxOutputInfo := sStxCommitmentInfos outs.tail

/-- A payout of a vote or a revocation: its payee and its amount. -/
structure StakePayout where
  isP2SH : Bool
  address : List UInt8
  amount : ℤ
  deriving DecidableEq, Repr

/-- The body of the loops of `TxSSGenStakeOutputInfo` and `TxSSRtxStakeOutputInfo`, for the class
that the outputs must have. -/
def stakePayout (s : Txscript) (tagged : ScriptClass) (out : TxOut) : Except Err StakePayout := do
  let (scriptClass, addrs) ← s.extractPkScriptAddrs out.version out.pkScript
  rejectIf (scriptClass ≠ tagged) Err.other
  let subClass ← s.getStakeOutSubclass out.pkScript
  rejectIf (subClass ≠ .pubKeyHash ∧ subClass ≠ .scriptHash) Err.other
  match addrs with
  | [] => .error .panic
  | address :: _ => pure ⟨subClass == .scriptHash, address, out.value⟩

/-- `TxSSGenStakeOutputInfo`: what a vote pays. -/
def txSSGenStakeOutputInfo (s : Txscript) (tx : MsgTx) : Except Err (List StakePayout) :=
  (tx.txOut.drop 2).mapM (stakePayout s .stakeGen)

/-- `TxSSRtxStakeOutputInfo`: what a revocation pays. -/
def txSSRtxStakeOutputInfo (s : Txscript) (tx : MsgTx) : Except Err (List StakePayout) :=
  tx.txOut.mapM (stakePayout s .stakeRevocation)

/-- The loop of `SStxNullOutputAmounts`: what each input contributes, after its change. -/
def contribAmounts : List ℤ → List ℤ → Except Err (List ℤ)
  | amount :: amounts, change :: changeAmounts => do
    let contrib := int64 (amount - change)
    rejectIf (contrib < 0) (Err.stake .sStxBadChangeAmts)
    let contribs ← contribAmounts amounts changeAmounts
    pure (contrib :: contribs)
  | _, _ => pure []

/-- `SStxNullOutputAmounts`, without the fees, which no caller here reads. -/
def sStxNullOutputAmounts (amounts changeAmounts : List ℤ) (amountTicket : ℤ) :
    Except Err (List ℤ) := do
  rejectIf (amounts.length ≠ changeAmounts.length) Err.other
  rejectIf (amountTicket ≤ 0) (Err.stake .sStxBadCommitAmount)
  contribAmounts amounts changeAmounts

/-- `CalculateRewards`. The source divides by the sum of the contributions. -/
def calculateRewards (amounts : List ℤ) (amountTicket subsidy : ℤ) : Except Err (List ℤ) := do
  let amountWithStakebase := int64 (amountTicket + subsidy)
  let totalContrib := amounts.foldl (fun sum amount => int64 (sum + amount)) 0
  rejectIf (totalContrib = 0 ∧ amounts ≠ []) Err.panic
  pure (amounts.map fun amount =>
    int64 (amount * amountWithStakebase * 2^32 / totalContrib / 2^32).natAbs)

/-- `VerifySStxAmounts`: the amounts are those calculated. -/
def verifySStxAmounts (sstxAmts sstxCalcAmts : List ℤ) : Except Err PUnit :=
  rejectIf (sstxAmts ≠ sstxCalcAmts) (Err.stake .verSStxAmts)

/-- The check of one payout of `VerifyStakingPkhsAndAmounts` against the amount that the ticket's
commitment allows. -/
def verifyStakingAmount (isVote : Bool) (info : SStxOutputInfo) (amt calcAmt : ℤ) :
    Except Err PUnit := do
  let rule := if isVote then info.voteRule else info.revocationRule
  let limit := if isVote then info.voteLimit else info.revocationLimit
  let feeAllowance := if limit < 63 ∧ (2 ^ limit : ℤ) < calcAmt then 2 ^ limit else calcAmt
  rejectIf (rule ∧ amt < int64 (calcAmt - feeAllowance)) (Err.stake .verifyTooMuchFees)
  rejectIf (rule ∧ calcAmt < amt) (Err.stake .verifySpendTooMuch)
  rejectIf (¬ rule ∧ amt ≠ calcAmt) (Err.stake .verifyOutputAmt)

/-- `VerifyStakingPkhsAndAmounts`: each payee gets its share. -/
def verifyStakingPkhsAndAmounts (sstx : List SStxOutputInfo) (payouts : List StakePayout)
    (calcAmts : List ℤ) (isVote : Bool) : Except Err PUnit := do
  rejectIf (sstx.length ≠ payouts.length) (Err.stake .verifyInput)
  rejectIf (payouts.length ≠ calcAmts.length) (Err.stake .verifyInput)
  rejectIf (sstx.map SStxOutputInfo.isP2SH ≠ payouts.map StakePayout.isP2SH)
    (Err.stake .verifyOutType)
  (sstx.zip (payouts.zip calcAmts)).forM fun (info, payout, calcAmt) =>
    verifyStakingAmount isVote info payout.amount calcAmt
  rejectIf (sstx.map SStxOutputInfo.address ≠ payouts.map StakePayout.address)
    (Err.stake .verifyOutPkhs)

end Hcashd.Stake
