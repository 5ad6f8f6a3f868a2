import Hcashd.Blockchain.Connect

/-!
# The pool of unconfirmed transactions

`mempool/mempool.go`: a transaction is accepted after the checks of `maybeAcceptTransaction`, and
then each of its inputs is entered in an index from outpoints to the transactions of the pool that
spend them. The index is what a later transaction is checked against, and what finds the
transactions that go with one that is removed.

A vote and a revocation are not checked against the index, because a ticket may vote on several
blocks.

What the pool is given: the state of the chain, which is another one at each call, and the parts of
the policy that are not modelled (standard scripts, priorities, the limit on the rate of free
transactions). The pool of orphans is only there for `haveTransaction`.
-/

namespace Hcashd.Mempool

open Lib Stake Blockchain

/-- `wire.RejectCode`, those that the pool uses. -/
inductive RejectCode
  | invalid | duplicate | nonstandard | insufficientFee
  deriving DecidableEq, Repr

/-- Why a transaction was not accepted. -/
inductive TxErr
  /-- A rule of the pool, with its code. -/
  | rule (code : RejectCode)
  /-- An error of a called function. -/
  | chain (err : Err)
  /-- The fee is above what `allowHighFees` is asked for. -/
  | highFee
  deriving DecidableEq, Repr

/-- The errors of the chain are passed on. -/
def ofChain {α : Type} : Except Err α → Except TxErr α := Except.mapError .chain

-- The limits of `mempool.go`.
def mempoolHeight : ℕ := 0x7fffffff
def DefaultBlockPrioritySize : ℤ := 20000
def maxRelayFeeMultiplier : ℤ := 1000
def maxSSGensDoubleSpends : ℕ := 5
def heightDiffToPruneTicket : ℤ := 288
def heightDiffToPruneVotes : ℤ := 10
def maximumVoteAgeDelta : ℤ := 1440

/-- The fields of `Policy` that the modelled functions read. -/
structure Policy where
  disableRelayPriority : Bool
  relayNonStd : Bool
  maxSigOpsPerTx : ℕ
  minRelayTxFee : ℤ
  allowOldVotes : Bool

/-- What the functions of `Config` return during a call, and the answers of what is not modelled. -/
structure Node where
  bestHash : Hash
  bestHeight : ℕ
  bestRealKeyHeight : ℤ
  nextStakeDifficulty : Except Err ℤ
  fetchUtxoView : MsgTx → Bool → Except Err UtxoViewpoint
  keyHeightByHeight : ℕ → Except Err ℤ
  checkTransactionStandard : MsgTx → TxType → Except TxErr PUnit
  checkInputsStandard : MsgTx → TxType → UtxoViewpoint → Except TxErr PUnit
  -- The priority of the transaction is above `MinHighPriority`.
  highPriority : MsgTx → UtxoViewpoint → Bool
  -- `pennyTotal` has reached its limit.
  pennyLimit : Bool

/-- `TxDesc`: a transaction of the pool. -/
structure TxDesc where
  tx : MsgTx
  type : TxType
  height : ℕ
  fee : ℤ
  deriving DecidableEq

/-- `VoteTx`: a vote, its ticket and whether it approves. -/
structure VoteTx where
  ssgenHash : Hash
  sstxHash : Hash
  vote : Bool
  deriving DecidableEq

/-- `TxPool`: transactions, orphans, spent outpoints and votes. -/
structure TxPool where
  pool : Std.ExtTreeMap Hash TxDesc
  orphans : Std.ExtTreeMap Hash MsgTx
  outpoints : OutPoint → Option MsgTx
  votes : Std.ExtTreeMap Hash (List VoteTx)

/-- The outpoints that a transaction spends. -/
def spentOutPoints (tx : MsgTx) : List OutPoint := tx.txIn.map TxIn.previousOutPoint

/-- `calcMinRequiredTxRelayFee`: the fee for a size, at most all coins. -/
def calcMinRequiredTxRelayFee (maxAmount serializedSize minRelayTxFee : ℤ) : ℤ :=
  let minFee := Int.tdiv (int64 (serializedSize * minRelayTxFee)) 1000
  let minFee := if minFee = 0 ∧ 0 < minRelayTxFee then minRelayTxFee else minFee
  if minFee < 0 ∨ maxAmount < minFee then maxAmount else minFee

variable (env : Env) (policy : Policy)

namespace TxPool

/-- A pool without transactions. -/
def empty : TxPool := ⟨∅, ∅, fun _ => none, ∅⟩

/-- `haveTransaction`: the pool has it, or it is an orphan. -/
def haveTransaction (mp : TxPool) (hash : Hash) : Bool :=
  mp.pool.contains hash || mp.orphans.contains hash

/-- The part of `removeTransaction` after the redeemers. -/
def removeFromPool (mp : TxPool) (tx : MsgTx) : TxPool :=
  match mp.pool[env.txHash tx]? with
  | none => mp
  | some txDesc =>
    { mp with
      outpoints := fun o => if o ∈ spentOutPoints txDesc.tx then none else mp.outpoints o
      pool := mp.pool.erase (env.txHash tx) }

/-- The outpoints of a transaction, as a redeemer of the right tree names them. -/
def ownOutPoints (tx : MsgTx) : List OutPoint :=
  (List.range (u32 tx.txOut.length)).map fun i => ⟨env.txHash tx, i, indicatedTree (txType env tx)⟩

/-- `removeTransaction`, of which at most `fuel` calls are inside each other. -/
def removeTransactionFuel : ℕ → TxPool → MsgTx → Bool → Except Err TxPool
  | 0, _, _, _ => .error .outOfFuel
  | fuel + 1, mp, tx, removeRedeemers => do
    let mp ← (if removeRedeemers then ownOutPoints env tx else []).foldlM (fun mp o =>
      match mp.outpoints o with
      | none => pure mp
      | some txRedeemer => removeTransactionFuel fuel mp txRedeemer true) mp
    pure (mp.removeFromPool env tx)

/-- `removeTransaction`. Each call inside another is for a later transaction of the pool. -/
def removeTransaction (mp : TxPool) (tx : MsgTx) (removeRedeemers : Bool) : Except Err TxPool :=
  removeTransactionFuel env (mp.pool.size + 1) mp tx removeRedeemers

/-- `RemoveDoubleSpends`: removes what spends the same outpoints. -/
def removeDoubleSpends (mp : TxPool) (tx : MsgTx) : Except Err TxPool :=
  (spentOutPoints tx).foldlM (fun mp o =>
    match mp.outpoints o with
    | none => pure mp
    | some txRedeemer =>
      if env.txHash txRedeemer = env.txHash tx then pure mp
      else mp.removeTransaction env txRedeemer true) mp

/-- `addTransaction`: adds it to the pool and to the index of outpoints. -/
def addTransaction (mp : TxPool) (tx : MsgTx) (type : TxType) (height : ℕ) (fee : ℤ) : TxPool :=
  { mp with
    pool := mp.pool.insert (env.txHash tx) ⟨tx, type, height, fee⟩
    outpoints := fun o => if o ∈ spentOutPoints tx then some tx else mp.outpoints o }

/-- `checkPoolDoubleSpend`: rejects an input that the pool spends. -/
def checkPoolDoubleSpend (mp : TxPool) (tx : MsgTx) (type : TxType) : Except TxErr PUnit :=
  (if type = .sSGen ∨ type = .sSRtx then (spentOutPoints tx).tail else spentOutPoints tx).forM
    fun o =>
    rejectIf ((mp.outpoints o).isSome) (TxErr.rule .duplicate)

/-- The transactions of a type in the pool that spend an outpoint with the input at an index. -/
def countRivals (mp : TxPool) (type : TxType) (index : ℕ) (o : OutPoint) : ℕ :=
  mp.pool.toList.countP fun (_, desc) =>
    desc.type = type ∧ desc.tx.txIn[index]?.map TxIn.previousOutPoint = some o

/-- The part of `maybeAcceptTransaction` on double spends. -/
def checkDoubleSpend (mp : TxPool) (tx : MsgTx) (type : TxType) : Except TxErr PUnit :=
  match type with
  | .sSGen => match tx.txIn[1]? with
    | none => .error (.chain .panic)
    | some txIn => rejectIf (maxSSGensDoubleSpends < mp.countRivals .sSGen 1 txIn.previousOutPoint)
        (TxErr.rule .duplicate)
  | .sSRtx => match tx.txIn[0]? with
    | none => .error (.chain .panic)
    | some txIn =>
      rejectIf (0 < mp.countRivals .sSRtx 0 txIn.previousOutPoint) (TxErr.rule .duplicate)
  | _ => mp.checkPoolDoubleSpend tx type

/-- `IsTxTreeValid`: the votes of the pool do not disapprove the tip. -/
def isTxTreeValid (mp : TxPool) (newestHash : Hash) : Bool :=
  let vts := mp.votes[newestHash]?.getD []
  if vts.length ≤ env.params.ticketsPerBlock / 2 then true
  else decide (vts.countP (fun vt => !vt.vote) < vts.countP VoteTx.vote)

/-- `fetchInputUtxos`: the outputs of the chain, and those of the pool. -/
def fetchInputUtxos (mp : TxPool) (node : Node) (tx : MsgTx) : Except Err UtxoViewpoint := do
  let utxoView ← node.fetchUtxoView tx (mp.isTxTreeValid env node.bestHash)
  pure (utxoView.entries.foldl (fun view originHash entry =>
    match entry, mp.pool[originHash]? with
    | some entry, some txDesc =>
      if entry.isFullySpent then addTxOuts env view txDesc.tx mempoolHeight NullBlockIndex else view
    | none, some txDesc => addTxOuts env view txDesc.tx mempoolHeight NullBlockIndex
    | _, none => view) utxoView)

/-- `insertVote`: lists a vote for its block, once for each ticket. -/
def insertVote (mp : TxPool) (ssgen : MsgTx) : TxPool :=
  let ticketHash := (ssgen.txIn[1]?.map fun txIn => txIn.previousOutPoint.hash).getD 0
  let blockHash := (sSGenBlockVotedOn ssgen).1
  let vts := mp.votes[blockHash]?.getD []
  let vote : VoteTx := ⟨env.txHash ssgen, ticketHash, blockValid (sSGenVoteBits ssgen)⟩
  if vts.any fun vt => vt.sstxHash = ticketHash then mp
  else { mp with votes := mp.votes.insert blockHash (vts ++ [vote]) }

/-- The checks of `maybeAcceptTransaction` that do not look at what the transaction spends. -/
def checkStandalone (node : Node) (tx : MsgTx) (type : TxType) : Except TxErr PUnit := do
  ofChain (checkTransactionSanity env tx)
  rejectIf (isCoinBaseTx tx) (TxErr.rule .invalid)
  rejectIf (2^31 ≤ tx.lockTime) (TxErr.rule .nonstandard)
  if policy.relayNonStd then pure ⟨⟩ else node.checkTransactionStandard tx type
  if type = .sStx then do
    let sDiff ← ofChain node.nextStakeDifficulty
    rejectIf ((tx.txOut.head?.map TxOut.value).getD 0 < sDiff) (TxErr.rule .insufficientFee)
  else pure ⟨⟩

/-- Votes that are on too old of blocks are rejected. -/
def checkVoteAge (node : Node) (tx : MsgTx) (type : TxType) : Except TxErr PUnit :=
  rejectIf (type = .sSGen ∧
    ((sSGenBlockVotedOn tx).2.2 : ℤ) < node.bestRealKeyHeight - maximumVoteAgeDelta ∧
    policy.allowOldVotes = false) (TxErr.rule .nonstandard)

/-- The transactions that an orphan waits for. -/
def missingParents (view : UtxoViewpoint) (tx : MsgTx) (type : TxType) : List Hash :=
  ((if type = .sSGen then tx.txIn.tail else tx.txIn).filter fun txIn =>
    match view.lookupEntry txIn.previousOutPoint.hash with
    | none => true
    | some entry => entry.isFullySpent).map fun txIn => txIn.previousOutPoint.hash

/-- The checks of `maybeAcceptTransaction` on the fee. -/
def checkFee (node : Node) (view : UtxoViewpoint) (tx : MsgTx) (type : TxType) (txFee : ℤ)
    (isNew rateLimit allowHighFees : Bool) : Except TxErr PUnit := do
  let serializedSize : ℤ := env.txSize tx
  let minFee := calcMinRequiredTxRelayFee env.maxAmount serializedSize policy.minRelayTxFee
  rejectIf (type = .regular ∧ DefaultBlockPrioritySize - 1000 ≤ serializedSize ∧ txFee < minFee)
    (TxErr.rule .insufficientFee)
  rejectIf (isNew ∧ policy.disableRelayPriority = false ∧ txFee < minFee ∧ type = .regular ∧
    node.highPriority tx view = false) (TxErr.rule .insufficientFee)
  rejectIf (rateLimit ∧ txFee < minFee ∧ type = .regular ∧ node.pennyLimit)
    (TxErr.rule .insufficientFee)
  rejectIf (type = .sStx ∧ txFee < minFee) (TxErr.rule .insufficientFee)
  rejectIf (allowHighFees = false ∧ calcMinRequiredTxRelayFee env.maxAmount
    (int64 (serializedSize * maxRelayFeeMultiplier)) policy.minRelayTxFee < txFee) TxErr.highFee

/-- The checks of `maybeAcceptTransaction` on what the transaction spends, with its fee. -/
def checkInputs (node : Node) (view : UtxoViewpoint) (tx : MsgTx) (type : TxType)
    (isNew rateLimit allowHighFees : Bool) : Except TxErr ℤ := do
  let fees ← ofChain (checkTransactionInputs env node.keyHeightByHeight view (node.bestHeight + 1)
    node.bestRealKeyHeight .noCheck tx)
  if policy.relayNonStd then pure ⟨⟩ else node.checkInputsStandard tx type view
  let numP2SHSigOps ← ofChain (countP2SHSigOps env tx false (type = .sSGen) view)
  rejectIf (policy.maxSigOpsPerTx < numP2SHSigOps + countSigOps env tx false (type = .sSGen))
    (TxErr.rule .nonstandard)
  checkFee env policy node view tx type fees.txFeeInAtom isNew rateLimit allowHighFees
  ofChain (tx.txIn.zipIdx.forM fun (txIn, i) => checkInputScript env view tx txIn i)
  pure fees.txFeeInAtom

/-- `maybeAcceptTransaction`: the missing parents, and the pool, which is changed if there are
none. -/
def maybeAcceptTransaction (mp : TxPool) (node : Node) (tx : MsgTx)
    (isNew rateLimit allowHighFees : Bool) :
    Except TxErr (List Hash × TxPool) := do
  let type := txType env tx
  rejectIf (mp.haveTransaction (env.txHash tx)) (TxErr.rule .duplicate)
  checkStandalone env policy node tx type
  mp.checkDoubleSpend tx type
  checkVoteAge policy node tx type
  let utxoView ← ofChain (mp.fetchInputUtxos env node tx)
  rejectIf (((utxoView.lookupEntry (env.txHash tx)).map UtxoEntry.isFullySpent).getD true = false)
    (TxErr.rule .duplicate)
  let utxoView := { utxoView with entries := utxoView.entries.erase (env.txHash tx) }
  if missingParents utxoView tx type ≠ [] then pure (missingParents utxoView tx type, mp)
  else do
    let txFee ← checkInputs env policy node utxoView tx type isNew rateLimit allowHighFees
    let mp := mp.addTransaction env tx type node.bestHeight txFee
    pure ([], if type = .sSGen then mp.insertVote env tx else mp)

/-- The tests of `pruneStakeTx` for one transaction. `keyHeightByHeight` is negative where it
fails. -/
def pruneTests (keyHeightByHeight : ℕ → ℤ) (requiredStakeDifficulty realKeyHeight : ℤ)
    (desc : TxDesc) : List Bool :=
  let type := txType env desc.tx
  let txKeyHeight := keyHeightByHeight desc.height
  if txKeyHeight < 0 then []
  else [decide (type = .sStx ∧ txKeyHeight + heightDiffToPruneTicket < realKeyHeight),
    decide (type = .sStx ∧ (desc.tx.txOut.head?.map TxOut.value).getD 0 ≠ requiredStakeDifficulty),
    decide ((type = .sSRtx ∨ type = .sSGen) ∧ txKeyHeight + heightDiffToPruneVotes < realKeyHeight)]

/-- The test of `pruneExpiredTx`. -/
def expiredTest (realKeyHeight : ℤ) (desc : TxDesc) : List Bool :=
  [decide (desc.tx.expiry ≠ 0 ∧ (desc.tx.expiry : ℤ) < realKeyHeight)]

/-- The loops of `pruneStakeTx` and `pruneExpiredTx`: the transactions of the pool are visited in
some order, those that were removed meanwhile are not, and each test that a transaction meets
removes it. -/
def prune (tests : TxDesc → List Bool) (mp : TxPool) (order : List Hash) : Except Err TxPool :=
  order.foldlM (fun mp hash =>
    match mp.pool[hash]? with
    | none => pure mp
    | some desc => (tests desc).foldlM (fun mp test =>
        if test then mp.removeTransaction env desc.tx true else pure mp) mp) mp

/-- `pruneStakeTx`: removes stake transactions that are too old or too cheap. -/
def pruneStakeTx (mp : TxPool) (keyHeightByHeight : ℕ → ℤ)
    (requiredStakeDifficulty realKeyHeight : ℤ)
    (order : List Hash) : Except Err TxPool :=
  prune env (pruneTests env keyHeightByHeight requiredStakeDifficulty realKeyHeight) mp order

/-- `pruneExpiredTx`: removes what has expired. -/
def pruneExpiredTx (mp : TxPool) (realKeyHeight : ℤ) (order : List Hash) : Except Err TxPool :=
  prune env (expiredTest realKeyHeight) mp order

end TxPool

/-- What changes a pool. `ProcessTransaction` and `ProcessOrphans` are sequences of the first
three. -/
inductive PoolStep
  | accept (node : Node) (tx : MsgTx) (isNew rateLimit allowHighFees : Bool)
  | addOrphan (tx : MsgTx)
  | removeOrphan (hash : Hash)
  | remove (tx : MsgTx) (removeRedeemers : Bool)
  | removeDoubleSpends (tx : MsgTx)
  | pruneStakeTx (keyHeightByHeight : ℕ → ℤ) (requiredStakeDifficulty realKeyHeight : ℤ)
      (order : List Hash)
  | pruneExpiredTx (realKeyHeight : ℤ) (order : List Hash)

/-- The pool after a step. A transaction that is not accepted changes nothing. -/
def TxPool.serve (mp : TxPool) : PoolStep → Except Err TxPool
  | .accept node tx isNew rateLimit allowHighFees =>
    match mp.maybeAcceptTransaction env policy node tx isNew rateLimit allowHighFees with
    | .ok (_, mp') => .ok mp'
    | .error _ => .ok mp
  | .addOrphan tx => .ok { mp with orphans := mp.orphans.insert (env.txHash tx) tx }
  | .removeOrphan hash => .ok { mp with orphans := mp.orphans.erase hash }
  | .remove tx removeRedeemers => mp.removeTransaction env tx removeRedeemers
  | .removeDoubleSpends tx => mp.removeDoubleSpends env tx
  | .pruneStakeTx keyHeightByHeight requiredStakeDifficulty realKeyHeight order =>
    mp.pruneStakeTx env keyHeightByHeight requiredStakeDifficulty realKeyHeight order
  | .pruneExpiredTx realKeyHeight order => mp.pruneExpiredTx env realKeyHeight order

/-- The pools after steps that meet a condition, which may depend on the pool before. -/
inductive TxPool.Reachable (P : TxPool → PoolStep → Prop) : TxPool → Prop
  | empty : Reachable P .empty
  | serve {mp mp' : TxPool} {a : PoolStep} (hmp : Reachable P mp) (hP : P mp a)
    (hserve : mp.serve env policy a = .ok mp') : Reachable P mp'

end Hcashd.Mempool
