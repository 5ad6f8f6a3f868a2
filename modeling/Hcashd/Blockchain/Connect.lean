import Hcashd.Blockchain.Context
import Hcashd.Blockchain.Inputs
import Hcashd.Blockchain.Sanity

/-!
# Connecting a block

The last part of `validate.go`: a block is checked against the unspent outputs that its chain has
left. The regular transactions of the parent come first, if they are part of the chain; then the
block's stake transactions and then its regular transactions are checked one by one and connected,
and the coinbases are compared with what the block may pay itself. The regular transactions of the
block are taken back at the end: they become part of the chain with its child.
-/

namespace Hcashd.Blockchain

open Lib Stake

/-- The height of outputs that are in the pool and in no block. -/
def MempoolHeight : ℕ := 0x7fffffff

variable (env : Env)

/-- `KeyHeightByHeight`, with the height of the block that is checked in the cache. -/
def keyHeightByHeight (chain : Chain) (block : MsgBlock) (height : ℕ) : Except Err ℤ :=
  if height = MempoolHeight then pure height
  else if height = 0 then pure 0
  else if height = block.header.height then pure block.header.keyHeight
  else match chain.find? fun b => b.node.height = height with
    | none => .error .other
    | some b => pure b.block.header.keyHeight

/-- The step of `CountP2SHSigOps` for one input. -/
def p2shSigOps (view : UtxoViewpoint) (txIn : TxIn) : Except Err ℕ := do
  let entry ← originEntry view txIn
  let i := txIn.previousOutPoint.index
  rejectIf (entry.isOutputSpent i) (Err.rule .missingTx)
  let pkScript := entry.pkScriptByIndex i
  pure (if env.script.isPayToScriptHash pkScript then
    env.script.getPreciseSigOpCount txIn.signatureScript pkScript else 0)

/-- `CountP2SHSigOps`: the signature operations of the scripts that inputs reveal. -/
def countP2SHSigOps (tx : MsgTx) (isCoinBase isStakeBase : Bool) (view : UtxoViewpoint) :
    Except Err ℕ :=
  if isCoinBase || isStakeBase then pure 0
  else do
    let counts ← tx.txIn.mapM (p2shSigOps env view)
    pure counts.sum

/-- `checkNumSigOps`: adds up signature operations and rejects a block with too many. -/
def checkNumSigOps (tx : MsgTx) (view : UtxoViewpoint) (isCoinBase : Bool) (cumulativeSigOps : ℕ) :
    Except Err ℕ := do
  let numP2SHSigOps ← countP2SHSigOps env tx isCoinBase (isSSGen env tx) view
  let sigOps := cumulativeSigOps + countSigOps env tx isCoinBase (isSSGen env tx) + numP2SHSigOps
  rejectIf (MaxSigOpsPerBlock < sigOps) (Err.rule .tooManySigOps)
  pure sigOps

/-- The state of the loop of `checkTransactionsAndConnect`. -/
structure TreeState where
  conn : Connecting
  totalFees : ℤ
  sigOps : ℕ

/-- What the loop of `checkTransactionsAndConnect` is run with: the chain below the block, the
block's node, and which tree it is. -/
structure TreeContext where
  chain : Chain
  block : MsgBlock
  node : BlockNode
  regular : Bool

namespace TreeContext

variable (ctx : TreeContext)

/-- The fraud proofs that the kind of the block asks for. -/
def flag : FraudProofCheck := if ctx.node.isKeyBlock then .keyBlockCheck else .microBlockCheck

/-- The places of the coinbases. -/
def isCoinbaseAt (idx : ℕ) : Bool :=
  ctx.regular && (idx == 0 || (idx == 1 && ctx.node.isKeyBlock))

/-- The inputs of a transaction of the tree, checked against a view. -/
def checkInputs (view : UtxoViewpoint) (tx : MsgTx) : Except Err TxFees :=
  checkTransactionInputs env (keyHeightByHeight ctx.chain ctx.block) view ctx.node.height
    ctx.node.keyHeight ctx.flag tx

/-- The step of the loop of `checkTransactionsAndConnect`. -/
def checkAndConnectTx (s : TreeState) (tx : MsgTx) (idx : ℕ) : Except Err TreeState := do
  let sigOps ← checkNumSigOps env tx s.conn.view (ctx.isCoinbaseAt idx) s.sigOps
  let fees ← ctx.checkInputs env s.conn.view tx
  let totalFees := int64 (s.totalFees + fees.txFees)
  rejectIf (totalFees < s.totalFees) (Err.rule .badFees)
  let conn ← connectTransaction env s.conn tx ctx.node.height idx
  pure ⟨conn, totalFees, sigOps⟩

/-- The loop of `checkTransactionsAndConnect`. -/
def checkAndConnectTxs (c : Connecting) (txs : List MsgTx) : Except Err TreeState :=
  txs.zipIdx.foldlM (fun s (tx, idx) => ctx.checkAndConnectTx env s tx idx) ⟨c, 0, 0⟩

end TreeContext

/-- `GetTotalFeesByHash`, at a node of the chain. The zero hash stands for no block. -/
def totalFeesByHash (node : BlockNode) : ℤ := if node.hash = 0 then 0 else node.totalFees

/-- The walk of `checkTransactionsAndConnect` over the chain below a block, from the parent to the
last key block: the fees of all blocks on it. -/
def extraFeesLoop (prevKeyBlock : Hash) : Chain → ℤ → ℤ
  | [], extraFees => extraFees
  | b :: chain, extraFees =>
    if b.node.hash = 0 then extraFees
    else if b.node.hash = prevKeyBlock then int64 (extraFees + b.node.totalFees)
    else extraFeesLoop prevKeyBlock chain (int64 (extraFees + b.node.totalFees))

/-- The penalty for votes that are missing in the block, once there are votes. -/
def penalizedFees (header : BlockHeader) (fees : ℤ) : ℤ :=
  if env.params.stakeValidationHeight ≤ header.keyHeight + 1
    then scaleByVoters env fees header.voters
  else fees

/-- The shares of a block in its own fees, six tenths, and in those of its parent, three tenths. -/
def ownAndParentFees (header : BlockHeader) (fees prevFees : ℤ) : ℤ :=
  int64 ((int64 (penalizedFees env header fees * 6)).tdiv 10 +
    (int64 (penalizedFees env header prevFees * 3)).tdiv 10)

/-- The share of a key block in the fees since the last key block, one tenth. -/
def sinceKeyBlockFees (header : BlockHeader) (extraFees : ℤ) : ℤ :=
  (penalizedFees env header extraFees).tdiv 10

/-- What the coinbases of a block are compared with: the amount that they may pay, and the fees in
it. -/
structure Allowance where
  expAtomOut : ℤ
  totalFees : ℤ
  deriving DecidableEq, Repr

/-- The branch of `checkTransactionsAndConnect` for the block that distributes the initial tokens.
It is chosen by the key height. -/
def paysLedger (header : BlockHeader) : Bool :=
  header.keyHeight == 0 && !env.params.blockOneLedger.isEmpty

/-- The allowance of a block for the fees of its regular transactions, of its parent, of the blocks
since the last key block, and of its stake transactions. -/
def coinbaseAllowance (header : BlockHeader) (keyBlock : Bool)
    (fees prevFees extraFees inputFees : ℤ) : Allowance :=
  let shares := ownAndParentFees env header fees prevFees
  if paysLedger env header then ⟨calcBlockSubsidy env header.keyHeight, shares⟩
  else if keyBlock then
    let totalFees := int64 (int64 (shares + sinceKeyBlockFees env header extraFees) + inputFees)
    let subsidy := int64 (calcBlockWorkSubsidy env header.keyHeight header.voters +
      calcBlockTaxSubsidy env header.keyHeight header.voters)
    ⟨int64 (subsidy + totalFees), totalFees⟩
  else ⟨shares, shares⟩

/-- What the coinbases of a block pay, as `checkTransactionsAndConnect` adds it up: the second one
is left out in the branch for the initial tokens. -/
def coinbaseAtomOut (header : BlockHeader) (keyBlock : Bool) (txs : List MsgTx) : ℤ :=
  let counted := if keyBlock && !paysLedger env header then 2 else 1
  ((txs.take counted).flatMap MsgTx.txOut).foldl (fun sum out => int64 (sum + out.value)) 0

/-- The comparison of a block's coinbases with its allowance. -/
def checkCoinbaseValue (ctx : TreeContext) (prevFees fees inputFees : ℤ) (txs : List MsgTx) :
    Except Err PUnit := do
  let header := ctx.node.header
  let extraFees := extraFeesLoop header.prevKeyBlock ctx.chain 0
  let allowance :=
    coinbaseAllowance env header ctx.node.isKeyBlock fees prevFees extraFees inputFees
  let valueIn := ((txs.head?.bind fun tx => tx.txIn.head?).map TxIn.valueIn).getD 0
  rejectIf (valueIn ≠ int64 (allowance.expAtomOut - allowance.totalFees) ∧ 0 < ctx.node.height)
    (Err.rule .badCoinbaseAmountIn)
  rejectIf (allowance.expAtomOut < coinbaseAtomOut env header ctx.node.isKeyBlock txs)
    (Err.rule .badCoinbaseValue)

/-- The entry of the ticket that a vote spends, as the amount checks of a stake tree look it up. -/
def ticketEntry (view : UtxoViewpoint) (txIn : TxIn) : Except Err UtxoEntry :=
  match view.lookupEntry txIn.previousOutPoint.hash with
  | none => .error (.rule .ticketUnavailable)
  | some entry => .ok entry

/-- What the inputs of a transaction other than a stakebase spend, by the entries of a view. -/
def spentAmounts (view : UtxoViewpoint) (tx : MsgTx) : Except Err (List ℤ) :=
  (spendingInputs env tx).mapM fun txIn => do
    let entry ← ticketEntry view txIn
    pure (entry.amountByIndex txIn.previousOutPoint.index)

/-- A sum in 64 bits. -/
def sum64 (xs : List ℤ) : ℤ := xs.foldl (fun sum x => int64 (sum + x)) 0

/-- `checkStakeBaseAmounts`: each vote returns its ticket and takes the subsidy of a vote. -/
def checkStakeBaseAmounts (keyHeight : ℕ) (txs : List MsgTx) (view : UtxoViewpoint) :
    Except Err PUnit :=
  (txs.filter (isSSGen env)).forM fun tx => do
    let spent ← spentAmounts env view tx
    rejectIf (calcStakeVoteSubsidy env ((keyHeight : ℤ) - 1) <
      int64 (totalAtomOut tx - sum64 spent)) (Err.rule .sSGenSubsidy)

/-- `getStakeBaseAmounts`: what the votes of a tree pay beyond their tickets. -/
def getStakeBaseAmounts (txs : List MsgTx) (view : UtxoViewpoint) : Except Err ℤ := do
  let votes := txs.filter (isSSGen env)
  let spent ← votes.mapM (spentAmounts env view)
  pure (int64 (sum64 (votes.flatMap fun tx => tx.txOut.map TxOut.value) - sum64 spent.flatten))

/-- The outputs of a stake transaction as `getStakeTreeFees` counts them: a vote's subsidy is taken
off. -/
def stakeTxOuts (keyHeight : ℕ) (tx : MsgTx) : List ℤ :=
  tx.txOut.map TxOut.value ++ if isSSGen env tx
    then [-calcStakeVoteSubsidy env ((keyHeight : ℤ) - 1)] else []

/-- `getStakeTreeFees`: what the transactions of a stake tree leave as fees. -/
def getStakeTreeFees (keyHeight : ℕ) (txs : List MsgTx) (view : UtxoViewpoint) : Except Err ℤ := do
  let spent ← txs.mapM (spentAmounts env view)
  let totalInputs := sum64 spent.flatten
  let totalOutputs := sum64 (txs.flatMap (stakeTxOuts env keyHeight))
  rejectIf (totalInputs < totalOutputs) (Err.rule .stakeFees)
  pure (int64 (totalInputs - totalOutputs))

/-- The part of `checkTransactionsAndConnect` after the loop, for a stake tree. The stake
transactions of a micro block are not looked at. -/
def checkStakebaseValue (header : BlockHeader) (keyBlock : Bool) (fees : ℤ) (txs : List MsgTx)
    (view : UtxoViewpoint) : Except Err PUnit :=
  let early := header.keyHeight + 1 < env.params.stakeValidationHeight
  if keyBlock = false then pure ⟨⟩
  else if txs = [] then rejectIf (¬ early) (Err.rule .noStakeTx)
  else do
    checkStakeBaseAmounts env header.keyHeight txs view
    let totalAtomOutStake ← getStakeBaseAmounts env txs view
    let expAtomOut := if early then fees
      else int64 (calcStakeVoteSubsidy env ((header.keyHeight : ℤ) - 1) * header.voters)
    rejectIf (expAtomOut < totalAtomOutStake) (Err.rule .badStakebaseValue)

/-- The item of `checkBlockScripts` for one input. -/
def checkInputScript (view : UtxoViewpoint) (tx : MsgTx) (txIn : TxIn) (txInIndex : ℕ) :
    Except Err PUnit :=
  if txIn.previousOutPoint.index = MaxPrevOutIndex then pure ⟨⟩
  else do
    let entry ← originEntry view txIn
    match entry.sparseOutputs[txIn.previousOutPoint.index]? with
    | none => .error (.rule .badTxInput)
    | some output =>
      rejectIf (env.script.execute tx txInIndex output.scriptVersion output.pkScript = false)
        (Err.rule .scriptValidation)

/-- `checkBlockScripts` for the transactions of a tree, if scripts are run at this height. -/
def checkBlockScripts (height : ℕ) (txs : List MsgTx) (view : UtxoViewpoint) : Except Err PUnit :=
  if env.runScripts height then
    txs.forM fun tx => tx.txIn.zipIdx.forM fun (txIn, i) => checkInputScript env view tx txIn i
  else pure ⟨⟩

/-- The part of `checkConnectBlock` that connects the regular transactions of the parent. -/
def connectParentTree (db : UtxoSet) (c : Connecting) (block parent : MsgBlock) :
    Except Err Connecting :=
  if regularTxTreeValid env block parent then do
    let c ← fetchFor env db c .prevRegular block parent
    connectTree env c parent.transactions parent.header.height
  else pure c

/-- A tree of the block with its entries loaded: the duplicate check and then `fetchInputUtxos`. -/
def fetchTree (db : UtxoSet) (c : Connecting) (viewpoint : StakeViewpoint) (txs : List MsgTx)
    (block parent : MsgBlock) : Except Err Connecting := do
  let view ← checkDupTxs env db { c.view with stakeView := viewpoint } txs
  fetchFor env db { c with view := view } viewpoint block parent

/-- The part of `checkConnectBlock` for the block's stake transactions, with their fees. -/
def connectStakeTree (db : UtxoSet) (ctx : TreeContext) (parent : MsgBlock) (c : Connecting) :
    Except Err (Connecting × ℤ) := do
  let txs := ctx.block.sTransactions
  let c ← fetchTree env db c .currentStake txs ctx.block parent
  let s ← ctx.checkAndConnectTxs env c txs
  checkStakebaseValue env ctx.node.header ctx.node.isKeyBlock s.totalFees txs s.conn.view
  let stakeTreeFees ← getStakeTreeFees env ctx.node.keyHeight txs s.conn.view
  checkBlockScripts env ctx.node.height txs s.conn.view
  pure (s.conn, stakeTreeFees)

/-- The part of `checkConnectBlock` for the block's regular transactions. -/
def connectRegularTree (db : UtxoSet) (ctx : TreeContext) (parent : MsgBlock) (prevFees : ℤ)
    (stakeTreeFees : ℤ) (c : Connecting) : Except Err Connecting := do
  let txs := ctx.block.transactions
  let c ← fetchTree env db c .currentRegular txs ctx.block parent
  let s ← ctx.checkAndConnectTxs env c txs
  checkCoinbaseValue env ctx prevFees s.totalFees stakeTreeFees txs
  checkBlockScripts env ctx.node.height txs s.conn.view
  pure s.conn

/-- The rollback of `checkConnectBlock`: above height one, the block's regular transactions are
taken back. -/
def rollbackRegularTree (ctx : TreeContext) (c : Connecting) : Except Err Connecting :=
  if 1 < ctx.node.height then
    disconnectTransactionSlice env c ctx.block.transactions ctx.node.height ctx.node.isKeyBlock
  else pure c

/-- The checks of `checkConnectBlock` that only a key block goes through. -/
def checkKeyBlock (block : MsgBlock) (headers : List BlockHeader) (parentStakeNode : Stake.Node) :
    Except Err PUnit :=
  if isKeyBlock env block.header then
    match block.transactions with
    | [] => .error .panic
    | tx :: _ => do
      coinbasePaysTax env tx block.header.keyHeight block.header.voters
      checkBlockStakeSanity env block headers parentStakeNode
  else pure ⟨⟩

/-- The block at height one pays the initial tokens. -/
def checkBlockOne (block : MsgBlock) : Except Err PUnit :=
  if block.header.height = 1 then
    match block.transactions with
    | [] => .error .panic
    | tx :: _ => blockOneCoinbasePaysTokens env tx
  else pure ⟨⟩

/-- The view that `connectBestChain` starts from. -/
def newView (header : BlockHeader) : Connecting :=
  ⟨⟨∅, header.prevBlock, .prevRegular⟩, []⟩

/-- `checkConnectBlock`, for a block on top of `prev` and the chain below it, with the view and the
journal that the block leaves. -/
def checkConnectBlock (db : UtxoSet) (prev : ChainBlock) (below : Chain) (block : MsgBlock) :
    Except Err Connecting := do
  let chain := prev :: below
  let node := newBlockNode env block
  let parent := prev.block
  rejectIf (node.hash = env.blockHash env.params.genesisBlock.header) (Err.rule .missingTx)
  checkKeyBlock env block (Chain.headers chain) prev.stakeNode
  let c ← connectParentTree env db (newView block.header) block parent
  let (c, stakeTreeFees) ← connectStakeTree env db ⟨chain, block, node, false⟩ parent c
  let c ← connectRegularTree env db ⟨chain, block, node, true⟩ parent
    (totalFeesByHash prev.node) stakeTreeFees c
  let c ← rollbackRegularTree env ⟨chain, block, node, true⟩ c
  checkBlockOne env block
  pure c

end Hcashd.Blockchain
