import Mathlib

/-!
# Errors

What a modelled function returns when it does not succeed: a rule error of the `blockchain` or of
the `stake` package with its code, or one of the ways in which a Go function fails without a code.
The texts of the errors are left out.
-/

namespace Hcashd

/-- The codes of `stake/error.go` that the modelled functions return. -/
inductive StakeErrorCode
  | unknownTicketSpent | missingTicket | duplicateTicket | missingDatabaseTx | memoryCorruption
  | databaseCorrupt
  | sStxBadCommitAmount | sStxBadChangeAmts | verSStxAmts
  | verifyInput | verifyOutType | verifyTooMuchFees | verifySpendTooMuch | verifyOutputAmt
  | verifyOutPkhs
  | sStxTooManyInputs | sStxTooManyOutputs | sStxNoOutputs | sStxInvalidOutputs
  | sStxInOutProportions
  | sSGenWrongNumInputs | sSGenTooManyOutputs | sSGenNoOutputs | sSGenWrongIndex | sSGenWrongTxTree
  | sSGenNoStakebase | sSGenNoReference | sSGenBadReference | sSGenNoVotePush | sSGenBadVotePush
  | sSGenBadGenOuts | sSRtxWrongNumInputs | sSRtxTooManyOutputs | sSRtxNoOutputs | sSRtxWrongTxTree
  | sSRtxBadOuts
  deriving DecidableEq, Repr

/-- The codes of `blockchain/error.go` that the modelled functions return. -/
inductive ErrorCode
  | duplicateBlock | missingParent | blockTooBig | wrongBlockSize | blockOneTx | blockOneInputs
  | blockOneOutputs | badBlockHeight | invalidTime | timeTooOld | timeTooNew | unexpectedDifficulty
  | highHash | badMerkleRoot | badCheckpoint | forkTooOld | noTransactions | noTxInputs
  | noTxOutputs | txTooBig | badTxOutValue | duplicateTxInputs | badTxInput | missingTx
  | unfinalizedTx | duplicateTx | overwriteTx | immatureSpend | doubleSpend | spendTooHigh | badFees
  | tooManySigOps | firstTxNotCoinbase | coinbaseHeight | multipleCoinbases | stakeTxInRegularTree
  | regTxInStakeTree | badCoinbaseScriptLen | badCoinbaseValue | badCoinbaseOutpoint
  | badCoinbaseFraudProof | badCoinbaseAmountIn | badStakebaseAmountIn | badStakebaseScriptLen
  | badStakebaseScrVal | scriptMalformed | scriptValidation | notEnoughStake | stakeBelowMinimum
  | invalidEarlyStakeTx | ticketUnavailable | votesOnWrongBlock | votesMismatch | incongruentVotebit
  | invalidSSRtx | freshStakeMismatch | tooManySStxs | invalidEarlyVoteBits | sStxInImmature
  | sStxInScrType | tooManyVotes | sStxCommitment | unparseableSSGen | invalidSSGenInput
  | sSGenPayeeNum | sSGenPayeeOuts | sSGenSubsidy | invalidSSRtxInput | sSRtxPayeesMismatch
  | sSRtxPayees | txSStxOutSpend | regTxSpendStakeOut | invalidFinalState | poolSize
  | revocationsMismatch | tooManyRevocations | badStakebaseValue | discordantTxTree | stakeFees
  | noStakeTx | noTax | expiredTx | expiryTxSpentEarly | fraudAmountIn | fraudBlockHeight
  | fraudBlockIndex | zeroValueOutputSpend | notEnoughVotes | nonstandardStakeTx
  | voteBitsNotCompatible | checkpointTimeTooOld | difficultyTooLow | noSuchBlockHash
  | forceReorgWrongChain | forceReorgMissingChild
  deriving DecidableEq, Repr

/-- Why a modelled function did not succeed. -/
inductive Err
  /-- A `stake.RuleError`. -/
  | stake (code : StakeErrorCode)
  /-- A `blockchain.RuleError`. -/
  | rule (code : ErrorCode)
  /-- A `blockchain.AssertError`. -/
  | assertion
  /-- An error without a code. -/
  | other
  /-- A run-time panic: an index out of range, or a nil pointer read. -/
  | panic
  /-- A loop of the source that did not finish in the steps it was given. -/
  | outOfFuel
  deriving DecidableEq, Repr

/-- An error of a called function is reported under a code of the caller, and a run-time panic is
not. -/
def orRule {α : Type} (code : ErrorCode) : Except Err α → Except Err α
  | .ok a => .ok a
  | .error .panic => .error .panic
  | .error _ => .error (.rule code)

end Hcashd
