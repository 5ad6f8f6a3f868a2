import Hcashd.Blockchain.Env

/-!
# Subsidies

`subsidy.go`: the subsidy of a key block, reduced by a constant factor after each interval of key
heights, and its shares for the miner, for each vote and for the organization. The cache of the
source only saves work: its entry at an interval is what the loop computes.
-/

namespace Hcashd.Blockchain

open Lib

variable (env : Env)

/-- One reduction of the subsidy. -/
def reduceSubsidy (subsidy : ℤ) : ℤ :=
  (int64 (subsidy * env.params.mulSubsidy)).tdiv env.params.divSubsidy

/-- `CalcBlockSubsidy`. Key height 0 is that of block one, which distributes the initial tokens. -/
def calcBlockSubsidy (keyHeight : ℤ) : ℤ :=
  if keyHeight = 0 then env.params.blockOneSubsidy
  else
    let iteration := (keyHeight.tdiv env.params.subsidyReductionInterval % 2^64).toNat
    (reduceSubsidy env)^[iteration] env.params.baseSubsidy

/-- A share of the subsidy. -/
def subsidyShare (subsidy proportion total : ℤ) : ℤ := (int64 (subsidy * proportion)).tdiv total

/-- The part of an amount that goes with the voters who are present. -/
def scaleByVoters (amount : ℤ) (voters : ℕ) : ℤ :=
  (int64 (amount * voters)).tdiv env.params.ticketsPerBlock

/-- `CalcBlockWorkSubsidy`: the share of the miner, scaled by the votes. -/
def calcBlockWorkSubsidy (keyHeight : ℤ) (voters : ℕ) : ℤ :=
  let subsidy := subsidyShare (calcBlockSubsidy env keyHeight) env.params.workRewardProportion
    env.params.totalSubsidyProportions
  if keyHeight + 1 < env.params.stakeValidationHeight then subsidy
  else if voters = 0 then 0
  else scaleByVoters env subsidy voters

/-- `CalcStakeVoteSubsidy`: the share of one vote. -/
def calcStakeVoteSubsidy (keyHeight : ℤ) : ℤ :=
  subsidyShare (calcBlockSubsidy env keyHeight) env.params.stakeRewardProportion
    (int64 (env.params.totalSubsidyProportions * env.params.ticketsPerBlock))

/-- `CalcBlockTaxSubsidy`. Before votes begin the source counts five voters, whatever the number of
tickets of a block is. -/
def calcBlockTaxSubsidy (keyHeight : ℤ) (voters : ℕ) : ℤ :=
  if env.params.blockTaxProportion = 0 then 0
  else
    let subsidy := subsidyShare (calcBlockSubsidy env keyHeight) env.params.blockTaxProportion
      env.params.totalSubsidyProportions
    if keyHeight + 1 < env.params.stakeValidationHeight then scaleByVoters env subsidy 5
    else if voters = 0 then 0
    else scaleByVoters env subsidy voters

/-- The check of `BlockOneCoinbasePaysTokens` for one output and its entry in the ledger. -/
def paysToken (out : TxOut) (payout : TokenPayout) : Except Err PUnit := do
  rejectIf (out.version ≠ DefaultScriptVersion) (Err.rule .blockOneOutputs)
  match env.script.extractPkScriptAddrs out.version out.pkScript with
  | .ok (_, [address]) => do
    rejectIf (address ≠ payout.scriptAddress) (Err.rule .blockOneOutputs)
    rejectIf (out.value ≠ payout.amount) (Err.rule .blockOneOutputs)
  | _ => .error (.rule .blockOneOutputs)

/-- `BlockOneCoinbasePaysTokens`: block one pays what the ledger says. -/
def blockOneCoinbasePaysTokens (tx : MsgTx) : Except Err PUnit :=
  if env.params.blockOneLedger = [] then pure ⟨⟩
  else do
    rejectIf (tx.lockTime ≠ 0) (Err.rule .blockOneTx)
    rejectIf (tx.expiry ≠ NoExpiryValue) (Err.rule .blockOneTx)
    rejectIf ((tx.txIn.head?.map TxIn.sequence).getD 0 ≠ MaxTxInSequenceNum)
      (Err.rule .blockOneInputs)
    rejectIf (tx.txOut = []) (Err.rule .blockOneOutputs)
    rejectIf (env.params.blockOneLedger.length ≠ tx.txOut.length) (Err.rule .blockOneOutputs)
    (tx.txOut.zip env.params.blockOneLedger).forM fun (out, payout) => paysToken env out payout

/-- `CoinbasePaysTax`: the first output pays the tax to the organization. -/
def coinbasePaysTax (tx : MsgTx) (keyHeight voters : ℕ) : Except Err PUnit :=
  if keyHeight ≤ 1 ∨ env.params.blockTaxProportion = 0 then pure ⟨⟩
  else match tx.txOut with
    | [] => .error (.rule .noTxOutputs)
    | taxOutput :: _ => do
      rejectIf (taxOutput.version ≠ env.params.organizationPkScriptVersion) (Err.rule .noTax)
      rejectIf (taxOutput.pkScript ≠ env.params.organizationPkScript) (Err.rule .noTax)
      rejectIf (calcBlockTaxSubsidy env keyHeight voters ≠ taxOutput.value) (Err.rule .noTax)

end Hcashd.Blockchain
