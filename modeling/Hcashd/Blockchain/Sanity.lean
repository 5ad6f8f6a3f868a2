import Hcashd.Blockchain.Env

/-!
# Context-free checks

The first half of `validate.go` and `merkle.go`: what is asked of a transaction and of a block
without looking at the chain. A micro block is not asked everything that a key block is: its stake
transactions are neither checked nor counted.
-/

namespace Hcashd.Blockchain

open Lib Stake

-- The limits of `validate.go` and `wire/msgblock.go`.
def MinCoinbaseScriptLen : ℕ := 2
def MaxCoinbaseScriptLen : ℕ := 100
def MaxBlockPayload : ℕ := 2048000
def MaxSigOpsPerBlock : ℕ := 3000000
def MaxTimeOffsetSeconds : ℤ := 2 * 60 * 60
def earlyVoteBitsValue : ℕ := 0x0001

variable (env : Env)

/-- The step of `CheckTransactionSanity` for the amount of one output. -/
def addOutputAmount (totalAtom : ℤ) (out : TxOut) : Except Err ℤ := do
  rejectIf (out.value < 0) (Err.rule .badTxOutValue)
  rejectIf (env.maxAmount < out.value) (Err.rule .badTxOutValue)
  let totalAtom := int64 (totalAtom + out.value)
  rejectIf (totalAtom < 0) (Err.rule .badTxOutValue)
  rejectIf (env.maxAmount < totalAtom) (Err.rule .badTxOutValue)
  pure totalAtom

/-- The checks of `CheckTransactionSanity` on what the inputs refer to. -/
def checkInputKinds (tx : MsgTx) : Except Err PUnit :=
  if isCoinBaseTx tx then
    tx.txIn.forM fun txIn => do
      rejectIf (¬ isNullOutpoint txIn.previousOutPoint) (Err.rule .badCoinbaseOutpoint)
      rejectIf (¬ isNullFraudProof txIn) (Err.rule .badCoinbaseFraudProof)
      rejectIf (txIn.signatureScript.length < MinCoinbaseScriptLen ∨
        MaxCoinbaseScriptLen < txIn.signatureScript.length) (Err.rule .badCoinbaseScriptLen)
  else if isSSGen env tx then do
    tx.txIn.head?.toList.forM fun stakebase => do
      rejectIf (stakebase.signatureScript.length < MinCoinbaseScriptLen ∨
        MaxCoinbaseScriptLen < stakebase.signatureScript.length) (Err.rule .badStakebaseScriptLen)
      rejectIf (stakebase.signatureScript ≠ env.params.stakeBaseSigScript)
        (Err.rule .badStakebaseScrVal)
    tx.txIn.tail.forM fun ticket =>
      rejectIf (isNullOutpoint ticket.previousOutPoint) (Err.rule .badTxInput)
  else
    tx.txIn.forM fun txIn =>
      rejectIf (isNullOutpoint txIn.previousOutPoint) (Err.rule .badTxInput)

/-- `CheckTransactionSanity`: what a transaction says by itself. -/
def checkTransactionSanity (tx : MsgTx) : Except Err PUnit := do
  rejectIf (tx.txIn = []) (Err.rule .noTxInputs)
  rejectIf (tx.txOut = []) (Err.rule .noTxOutputs)
  rejectIf (env.params.maxTxSize < env.txSize tx) (Err.rule .txTooBig)
  let _ ← tx.txOut.foldlM (addOutputAmount env) 0
  checkInputKinds env tx
  rejectIf (¬ (tx.txIn.map TxIn.previousOutPoint).Nodup) (Err.rule .duplicateTxInputs)

/-- `checkProofOfStake`: the price that each ticket of a block commits. -/
def checkProofOfStake (block : MsgBlock) : Except Err PUnit :=
  block.sTransactions.forM fun tx =>
    let commitValue := (tx.txOut.head?.map TxOut.value).getD 0
    if isSStx env tx then do
      rejectIf (commitValue < block.header.sBits) (Err.rule .notEnoughStake)
      rejectIf (commitValue < env.params.minimumStakeDiff) (Err.rule .stakeBelowMinimum)
    else pure ⟨⟩

/-- `checkProofOfWork`. Above the height at which micro blocks begin, the hash may be up to a rate
times the target. -/
def checkProofOfWork (header : BlockHeader) (noPowCheck : Bool) : Except Err PUnit := do
  let target := compactToBig header.bits
  rejectIf (target ≤ 0) (Err.rule .unexpectedDifficulty)
  rejectIf (env.params.powLimit < target) (Err.rule .unexpectedDifficulty)
  let highest := if header.height ≤ env.params.microBlockValidationHeight % 2^32 then target
    else target * env.params.difficultyRate
  rejectIf (noPowCheck = false ∧ highest < hashToBig (env.blockHash header)) (Err.rule .highHash)

/-- `checkBlockHeaderSanity`, at a time of the node's clock. Timestamps are whole seconds here. -/
def checkBlockHeaderSanity (block : MsgBlock) (adjustedTime : ℤ) (noPowCheck : Bool) :
    Except Err PUnit := do
  checkProofOfWork env block.header noPowCheck
  checkProofOfStake env block
  rejectIf (adjustedTime + MaxTimeOffsetSeconds < block.header.timestamp) (Err.rule .timeTooNew)

/-- `CountSigOps`: the signature operations in the scripts of a transaction. -/
def countSigOps (tx : MsgTx) (isCoinBase isSSGen : Bool) : ℕ :=
  let inputs := if isCoinBase then [] else if isSSGen then tx.txIn.tail else tx.txIn
  (inputs.map fun txIn => env.script.getSigOpCount txIn.signatureScript).sum +
    (tx.txOut.map fun out => env.script.getSigOpCount out.pkScript).sum

/-- `nextPowerOfTwo`: the least power of two that is not below a number. -/
def nextPowerOfTwo (n : ℕ) : ℕ := if n &&& (n - 1) = 0 then n else 2 ^ (n.log2 + 1)

/-- `HashMerkleBranches`: the hash of two hashes, one after the other. -/
def hashMerkleBranches (left right : Hash) : Hash := env.hashH (left.bytes ++ right.bytes)

/-- The nodes above a row of a merkle tree: a node without a left child is nil, and a missing right
child is replaced by the left one. -/
def merkleParents : List (Option Hash) → List (Option Hash)
  | some left :: some right :: row => some (hashMerkleBranches env left right) :: merkleParents row
  | some left :: none :: row => some (hashMerkleBranches env left left) :: merkleParents row
  | none :: _ :: row => none :: merkleParents row
  | _ => []

/-- The leaf that a micro block puts before its transactions: thirty-two bytes of the script of its
coinbase's first output. -/
def compressedLeaf (transactions : List MsgTx) : Except Err (Option Hash) :=
  match transactions with
  | ⟨_, _, out :: _ :: _, _, _⟩ :: _ => do
    rejectIf (36 ≤ out.pkScript.length ∧ out.pkScript.length < 38) Err.panic
    pure (if out.pkScript.length < 36 then none else some (Hash.ofBytes (out.pkScript.drop 6)))
  | _ => pure none

/-- The last element of the array that `BuildMerkleTreeStore` returns for a row of leaves. -/
def merkleTop (leaves : List (Option Hash)) : Option Hash :=
  let width := nextPowerOfTwo leaves.length
  let row := leaves ++ List.replicate (width - leaves.length) none
  ((merkleParents env)^[width.log2] row).head?.join

/-- The last element of the array that `BuildMerkleTreeStore` returns. A compressed tree whose
coinbase has no leaf for it is left unfinished. -/
def merkleRoot (transactions : List MsgTx) (compressed : Bool) : Except Err (Option Hash) :=
  let hashes := transactions.map fun tx => some (env.txHashFull tx)
  if transactions = [] then pure (some 0)
  else if compressed then do
    let leaf ← compressedLeaf transactions
    pure (leaf.bind fun leaf => merkleTop env (some leaf :: hashes))
  else pure (merkleTop env hashes)

/-- The checks of `checkBlockSanity` on the coinbases: a block begins with `count` of them and has
no others. Indexing a coinbase that is not there is a run-time panic. -/
def checkCoinbases (transactions : List MsgTx) (count : ℕ) : Except Err PUnit := do
  (transactions.take count).forM fun tx =>
    rejectIf (¬ isCoinBaseTx tx) (Err.rule .firstTxNotCoinbase)
  rejectIf (transactions.length < count) Err.panic
  (transactions.drop count).forM fun tx =>
    rejectIf (isCoinBaseTx tx) (Err.rule .multipleCoinbases)

/-- The checks of `checkBlockSanity` on each regular transaction. -/
def checkRegularTx (tx : MsgTx) : Except Err PUnit := do
  rejectIf (txType env tx ≠ .regular) (Err.rule .stakeTxInRegularTree)
  checkTransactionSanity env tx

/-- The checks of `checkBlockSanity` on each stake transaction of a key block. -/
def checkStakeTx (tx : MsgTx) : Except Err PUnit := do
  checkTransactionSanity env tx
  rejectIf (txType env tx = .regular) (Err.rule .regTxInStakeTree)

/-- The number of transactions of a type. -/
def countTxType (type : TxType) (txs : List MsgTx) : ℕ := txs.countP fun tx => txType env tx = type

/-- The checks of `checkBlockSanity` on the stake transactions of a key block. -/
def checkStakeTree (block : MsgBlock) : Except Err PUnit := do
  block.sTransactions.forM (checkStakeTx env)
  let totalVotes := countTxType env .sSGen block.sTransactions
  rejectIf (countTxType env .sStx block.sTransactions ≠ block.header.freshStake)
    (Err.rule .freshStakeMismatch)
  rejectIf (env.params.stakeValidationHeight ≤ u32 (block.header.keyHeight + 1) ∧
    totalVotes ≤ env.params.ticketsPerBlock / 2) (Err.rule .notEnoughVotes)
  rejectIf (env.params.ticketsPerBlock < totalVotes) (Err.rule .tooManyVotes)
  rejectIf (totalVotes ≠ block.header.voters) (Err.rule .votesMismatch)
  rejectIf (countTxType env .sSRtx block.sTransactions ≠ block.header.revocations)
    (Err.rule .revocationsMismatch)

/-- Only a key block has its stake transactions checked. -/
def checkStakeTreeIf (keyBlock : Bool) (block : MsgBlock) : Except Err PUnit :=
  if keyBlock then checkStakeTree env block else pure ⟨⟩

/-- The comparison of the merkle roots of a header with those of the transactions. -/
def checkMerkleRoots (block : MsgBlock) (keyBlock compressed : Bool) : Except Err PUnit := do
  let calculatedMerkleRoot ← merkleRoot env block.transactions compressed
  rejectIf (some block.header.merkleRoot ≠ calculatedMerkleRoot) (Err.rule .badMerkleRoot)
  let calculatedStakeMerkleRoot ← merkleRoot env block.sTransactions false
  rejectIf (keyBlock ∧ some block.header.stakeRoot ≠ calculatedStakeMerkleRoot)
    (Err.rule .badMerkleRoot)

/-- `checkBlockSanity`. With `BFNoPoWCheck` a block counts its coinbases as a key block does, and
its stake transactions as a micro block does. -/
def checkBlockSanity (block : MsgBlock) (adjustedTime : ℤ) (noPowCheck : Bool) :
    Except Err PUnit := do
  let header := block.header
  let keyBlock := !noPowCheck && isKeyBlock env header
  let secondCoinbase := noPowCheck || keyBlock
  checkBlockHeaderSanity env block adjustedTime noPowCheck
  rejectIf (block.transactions = []) (Err.rule .noTransactions)
  rejectIf (MaxBlockPayload < env.blockSize block) (Err.rule .blockTooBig)
  rejectIf (header.size < u32 (env.blockSize block)) (Err.rule .wrongBlockSize)
  checkCoinbases block.transactions (if secondCoinbase then 2 else 1)
  block.transactions.forM (checkRegularTx env)
  checkStakeTreeIf env keyBlock block
  checkMerkleRoots env block keyBlock (!secondCoinbase)
  rejectIf (¬ ((block.transactions ++ block.sTransactions).map env.txHash).Nodup)
    (Err.rule .duplicateTx)
  rejectIf (MaxSigOpsPerBlock < ((block.transactions ++ block.sTransactions).map fun tx =>
    countSigOps env tx (isCoinBaseTx tx) (isSSGen env tx)).sum) (Err.rule .tooManySigOps)
  rejectIf (u32 (header.keyHeight + 1) < env.params.stakeValidationHeight ∧
    header.voteBits ≠ earlyVoteBitsValue) (Err.rule .invalidEarlyVoteBits)

end Hcashd.Blockchain
