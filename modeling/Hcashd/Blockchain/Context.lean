import Hcashd.Blockchain.Utxo
import Hcashd.Stake.Tickets

/-!
# Checks against the chain

The checks of `accept.go` and of `checkBlockHeaderContext` that place a block on top of its parent.
A chain is a list of blocks, newest first: the ancestors that the source reaches through the links
of a node and through its index of blocks by hash, which holds each of them once.
-/

namespace Hcashd.Blockchain

open Lib Stake

/-- A block of the chain, with its node and its stake node. -/
structure ChainBlock where
  block : MsgBlock
  node : BlockNode
  stakeNode : Stake.Node

/-- The main chain, newest block first. -/
abbrev Chain := List ChainBlock

variable (env : Env)

/-- The headers of a chain, the newest first. -/
def Chain.headers (chain : Chain) : List BlockHeader := chain.map fun b => b.block.header

/-- The block of the chain with a hash. -/
def fetchBlockFromHash (chain : Chain) (hash : Hash) : Except Err MsgBlock :=
  match chain.find? fun b => b.node.hash = hash with
  | none => .error .other
  | some b => .ok b.block

/-- `calcPastMedianTime`: the median of the last eleven timestamps. -/
def calcPastMedianTime (headers : List BlockHeader) : ℤ :=
  let timestamps := ((headers.take 11).map BlockHeader.timestamp).insertionSort (· ≤ ·)
  timestamps.getD (timestamps.length / 2) 0

/-- `checkBlockHeaderContext`: the header against those before it. -/
def checkBlockHeaderContext (header prevHeader : BlockHeader) (headers : List BlockHeader) :
    Except Err PUnit := do
  let expDiff ← env.requiredDifficulty headers header.timestamp
  rejectIf (header.bits ≠ expDiff) (Err.rule .unexpectedDifficulty)
  rejectIf (header.timestamp ≤ calcPastMedianTime headers) (Err.rule .timeTooOld)
  rejectIf (env.verifyCheckpoint (prevHeader.height + 1) (env.blockHash header) = false)
    (Err.rule .badCheckpoint)
  rejectIf (1 < header.height ∧ blockValid header.voteBits ≠ blockValid prevHeader.voteBits ∧
    isKeyBlock env prevHeader = false) (Err.rule .voteBitsNotCompatible)
  let checkpoint ← env.previousCheckpoint headers
  rejectIf (∃ height ∈ checkpoint, prevHeader.height + 1 < height) (Err.rule .forkTooOld)

/-- `IsFinalizedTransaction`: whether the lock time is over, or no input asks for it. -/
def isFinalizedTransaction (tx : MsgTx) (blockKeyHeight : ℕ) (blockTime : ℤ) : Bool :=
  let blockTimeOrKeyHeight : ℤ := if tx.lockTime < 500000000 then blockKeyHeight else blockTime
  tx.lockTime == 0 || decide ((tx.lockTime : ℤ) < blockTimeOrKeyHeight) ||
    tx.txIn.all (fun txIn => txIn.sequence == MaxTxInSequenceNum)

/-- The coinbase that carries the height of the block: the last one. -/
def heightCoinbase (block : MsgBlock) : Option MsgTx :=
  block.transactions[coinbases env block.header - 1]?

/-- `checkCoinbaseUniqueHeight`: the coinbases commit to the height of the block. -/
def checkCoinbaseUniqueHeight (block : MsgBlock) (blockHeight : ℕ) : Except Err PUnit := do
  (block.transactions.take (coinbases env block.header)).forM fun tx =>
    rejectIf (tx.txOut.length < 2) (Err.rule .firstTxNotCoinbase)
  match (heightCoinbase env block).bind fun tx => tx.txOut.head? with
  | none => .error .panic
  | some out => do
    let nullData ←
      orRule .firstTxNotCoinbase (env.script.getNullDataContent out.version out.pkScript)
    rejectIf (nullData.length < 4) (Err.rule .firstTxNotCoinbase)
    rejectIf (ofLeBytes (nullData.take 4) ≠ u32 blockHeight) (Err.rule .coinbaseHeight)

/-- The coinbases of a block above height one carry its height. -/
def checkCoinbaseHeight (block : MsgBlock) (blockHeight : ℕ) : Except Err PUnit :=
  if 1 < blockHeight then checkCoinbaseUniqueHeight env block blockHeight else pure ⟨⟩

/-- `checkBlockContext`, without `BFFastAdd`. -/
def checkBlockContext (block : MsgBlock) (prevHeader : BlockHeader) (headers : List BlockHeader) :
    Except Err PUnit := do
  let header := block.header
  let blockHeight := prevHeader.height + 1
  checkBlockHeaderContext env header prevHeader headers
  let maxBlockSize ← env.maxBlockSize headers
  rejectIf (maxBlockSize < header.size) (Err.rule .blockTooBig)
  rejectIf (¬ ∀ tx ∈ block.transactions ++ block.sTransactions,
    isFinalizedTransaction tx header.keyHeight header.timestamp) (Err.rule .unfinalizedTx)
  rejectIf (blockHeight ≠ header.height) (Err.rule .badBlockHeight)
  checkCoinbaseHeight env block blockHeight

/-- A block is one higher than its parent. -/
theorem height_of_checkBlockContext {env : Env} {block : MsgBlock} {prevHeader : BlockHeader}
    {headers : List BlockHeader} (h : checkBlockContext env block prevHeader headers = .ok ⟨⟩) :
    block.header.height = prevHeader.height + 1 := by
  simp only [checkBlockContext, bind_eq_ok, rejectIf_eq_ok, exists_const, not_not] at h
  obtain ⟨_, -, _, -, -, -, hheight, -⟩ := h
  exact hheight.symm

/-- `prevKeyHashExists`: a block names the last key block before it, as its parent does or as its
parent is. -/
def prevKeyHashExists (header prevHeader : BlockHeader) : Except Err PUnit :=
  let keyHash := if isKeyBlock env prevHeader then env.blockHash prevHeader
    else prevHeader.prevKeyBlock
  rejectIf (header.prevKeyBlock ≠ keyHash) Err.other

/-- The limit of `maybeAcceptBlock` on the micro blocks that follow a key block. -/
def checkMicroPerKey (chain : Chain) (block : MsgBlock) : Except Err PUnit :=
  if isKeyBlock env block.header then pure ⟨⟩
  else if block.header.prevKeyBlock = 0 then
    rejectIf (env.params.maxMicroPerKey < block.header.height) (Err.rule .highHash)
  else do
    let prevKeyBlock ← fetchBlockFromHash chain block.header.prevKeyBlock
    rejectIf ((env.params.maxMicroPerKey : ℤ) <
      (block.header.height : ℤ) - prevKeyBlock.header.height)
      (Err.rule .highHash)

/-- The tickets that the votes of a block spend. -/
def ticketsSpentInBlock (block : MsgBlock) : List Hash :=
  (block.sTransactions.filter fun tx => txType env tx = .sSGen).filterMap fun tx =>
    tx.txIn[1]?.map fun txIn => txIn.previousOutPoint.hash

/-- The tickets that the revocations of a block spend. -/
def ticketsRevokedInBlock (block : MsgBlock) : List Hash :=
  (block.sTransactions.filter fun tx => txType env tx = .sSRtx).filterMap fun tx =>
    tx.txIn[0]?.map fun txIn => txIn.previousOutPoint.hash

/-- The loop of `fetchNewTicketsForNode`: steps back from key block to key block, up to the first
one. -/
def matureBlock (chain : Chain) : ℕ → MsgBlock → Except Err MsgBlock
  | 0, block => pure block
  | n + 1, block =>
    if block.header.prevKeyBlock = 0 then pure block
    else do
      let block ← fetchBlockFromHash chain block.header.prevKeyBlock
      matureBlock chain n block

/-- `fetchNewTicketsForNode`: the tickets that mature with a block. -/
def fetchNewTicketsForNode (chain : Chain) (header : BlockHeader) : Except Err (List Hash) :=
  if header.keyHeight < env.params.stakeEnabledHeight then pure []
  else do
    let prevKeyBlock ← fetchBlockFromHash chain header.prevKeyBlock
    let block ← matureBlock chain ((env.params.ticketMaturity + (2^16 - 1)) % 2^16) prevKeyBlock
    pure ((block.sTransactions.filter (isSStx env)).map env.txHash)

/-- The new tickets of a block: a micro block has none. -/
def newTicketsForNode (chain : Chain) (header : BlockHeader) : Except Err (List Hash) :=
  if isKeyBlock env header then fetchNewTicketsForNode env chain header else pure []

/-- `fetchStakeNode` for a block on the tip: the parent's stake node, connected. -/
def fetchStakeNode (chain : Chain) (parentStakeNode : Stake.Node) (block : MsgBlock) :
    Except Err Stake.Node := do
  let newTickets ← newTicketsForNode env chain block.header
  connectNode env.hashH env.params env.lotteryFuel parentStakeNode block.header
    (ticketsSpentInBlock env block) (ticketsRevokedInBlock env block)
    (some newTickets) (isKeyBlock env block.header)

-- What the checks of `CheckBlockStakeSanity` read of a ballot.

/-- The votes of a block. -/
def votesIn (block : MsgBlock) : List MsgTx := block.sTransactions.filter (isSSGen env)

/-- The number of votes that approve the regular transactions of the last key block. -/
def voteYea (block : MsgBlock) : ℕ :=
  (votesIn env block).countP fun tx => blockValid (sSGenVoteBits tx)

/-- The number of votes that disapprove them. -/
def voteNay (block : MsgBlock) : ℕ :=
  (votesIn env block).countP fun tx => !blockValid (sSGenVoteBits tx)

/-- The check of `CheckBlockStakeSanity` on one vote: its ticket is a winner, and it is on the last
key block, at the key height before that of the block. -/
def checkVote (header : BlockHeader) (winners : List Hash) (tx : MsgTx) : Except Err PUnit := do
  rejectIf ((tx.txIn[1]?.map fun txIn => txIn.previousOutPoint.hash).getD 0 ∉ winners)
    (Err.rule .ticketUnavailable)
  rejectIf ((sSGenBlockVotedOn tx).1 ≠ header.prevKeyBlock ∨
    (sSGenBlockVotedOn tx).2.2 ≠ u32Sub header.keyHeight 1) (Err.rule .votesOnWrongBlock)

/-- The check of `CheckBlockStakeSanity` on one revocation: its ticket was missed. -/
def checkRevocation (missedTickets : TicketTreap) (tx : MsgTx) : Except Err PUnit :=
  rejectIf ((tx.txIn[0]?.map fun txIn => txIn.previousOutPoint.hash).getD 0 ∉ missedTickets)
    (Err.rule .invalidSSRtx)

/-- The part of `CheckBlockStakeSanity` for blocks from `StakeValidationHeight` on. -/
def checkBallot (block : MsgBlock) (parentStakeNode : Stake.Node) : Except Err PUnit := do
  let header := block.header
  let txs := block.sTransactions
  rejectIf (header.voters = 0) (Err.rule .notEnoughVotes)
  rejectIf (header.voters < env.params.ticketsPerBlock / 2 + 1) (Err.rule .notEnoughVotes)
  (votesIn env block).forM (checkVote header parentStakeNode.nextWinners)
  rejectIf (voteYea env block ≤ voteNay env block ∧ blockValid header.voteBits)
    (Err.rule .incongruentVotebit)
  rejectIf (voteNay env block < voteYea env block ∧ ¬ blockValid header.voteBits)
    (Err.rule .incongruentVotebit)
  rejectIf (parentStakeNode.finalState ≠ header.finalState) (Err.rule .invalidFinalState)
  (txs.filter (isSSRtx env)).forM (checkRevocation parentStakeNode.missedTickets)
  rejectIf (255 < txs.countP (isSSRtx env)) (Err.rule .tooManyRevocations)
  rejectIf (txs.countP (isSStx env) + txs.countP (isSSGen env) + txs.countP (isSSRtx env) ≠
    txs.length) (Err.rule .nonstandardStakeTx)
  rejectIf (parentStakeNode.liveTickets.size ≠ header.poolSize) (Err.rule .poolSize)

/-- The part of `CheckBlockStakeSanity` for blocks before `StakeValidationHeight`. -/
def checkNoBallot (block : MsgBlock) (parentStakeNode : Stake.Node) : Except Err PUnit := do
  rejectIf (block.sTransactions.countP (isSStx env) ≠ block.sTransactions.length)
    (Err.rule .invalidEarlyStakeTx)
  rejectIf (parentStakeNode.liveTickets.size ≠ block.header.poolSize) (Err.rule .poolSize)

/-- `CheckBlockStakeSanity`, for a key block on top of the headers of a chain. -/
def checkBlockStakeSanity (block : MsgBlock) (headers : List BlockHeader)
    (parentStakeNode : Stake.Node) : Except Err PUnit := do
  let keyHeight := block.header.keyHeight
  let early := keyHeight + 1 < env.params.stakeValidationHeight
  let txs := block.sTransactions
  rejectIf ((∃ tx ∈ txs, isSSGen env tx ∨ isSSRtx env tx) ∧
    (keyHeight < env.params.stakeEnabledHeight + 1 ∨ early)) (Err.rule .invalidEarlyStakeTx)
  let calcSBits ← orRule .unexpectedDifficulty (env.requiredStakeDifficulty headers)
  rejectIf (block.header.sBits ≠ calcSBits) (Err.rule .unexpectedDifficulty)
  rejectIf (∃ tx ∈ txs, isSStx env tx ∧
    (tx.txOut.head?.map TxOut.value).getD 0 < block.header.sBits) (Err.rule .notEnoughStake)
  rejectIf (env.params.maxFreshStakePerBlock < txs.countP (isSStx env)) (Err.rule .tooManySStxs)
  if early then checkNoBallot env block parentStakeNode
  else checkBallot env block parentStakeNode

end Hcashd.Blockchain
