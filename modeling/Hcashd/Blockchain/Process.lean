import Hcashd.Blockchain.BlockIndex
import Hcashd.Blockchain.Journal
import Hcashd.Blockchain.KeyWalk
import Hcashd.Lib.Turns

/-!
# Processing blocks

`process.go` and the part of `chain.go` that chooses the main chain: a block may come before its
parent and wait as an orphan, may be on a side chain, and may bring about a reorganization, in which
blocks of the main chain are disconnected and those of a side chain connected in their place. A
block of a side chain is only checked against the unspent outputs when its chain is to become the
main chain.

The lock of the chain is given up while a notification is sent: after the blocks of a reorganization
have been checked, after each block that was disconnected or connected, and after a block was
accepted. Each call is therefore a `Call`, which says where other calls may come in between. What a
call has changed before it fails stays changed.

A node of the block index is its branch: the block and its ancestors. Old nodes are not removed here
(`BlockIndex` has this), and the nodes of the main chain carry their stake nodes.
-/

namespace Hcashd.Blockchain.Process

open Lib Stake Voting Call

/-- `orphanBlock`: a block without its parent, and when it expires. -/
structure OrphanBlock where
  block : MsgBlock
  expiration : ℤ
  deriving DecidableEq

/-- `BlockChain`. -/
structure NodeState where
  -- `bestNode` with its ancestors, and the utxo set.
  chain : ChainState
  -- The journals of the blocks of the main chain.
  spendJournal : Std.ExtTreeMap Hash (List JournalRecord)
  -- The nodes of the index that are not in the main chain, whose blocks are in `blockCache`.
  sides : List Branch
  -- The orphans in the order in which they came.
  orphans : List OrphanBlock
  oldestOrphan : Option OrphanBlock

/-- How many orphans are kept. -/
def maxOrphanBlocks : ℕ := 500

/-- The seconds that an orphan is kept. -/
def orphanLifetime : ℤ := 3600

variable (env : Env)

/-- The branch of the best node. -/
def NodeState.main (st : NodeState) : Branch := branchOf st.chain

/-- `b.index`, or the block index of the database for nodes of the main chain. -/
def NodeState.node (st : NodeState) (hash : Hash) : Option Branch :=
  (branchIndex env st.main hash).or (st.sides.find? fun node => nodeHash env node = hash)

/-- `blockExists`: whether there is a node with a hash. -/
def blockExists (st : NodeState) (hash : Hash) : Bool := (st.node env hash).isSome

/-- `fetchBlockFromHash`. Orphans are found, too. -/
def fetchBlockFromHash (st : NodeState) (hash : Hash) : Except Err MsgBlock :=
  match (st.node env hash).bind List.head? with
  | some block => pure block
  | none => match st.orphans.find? fun orphan => env.blockHash orphan.block.header = hash with
    | some orphan => pure orphan.block
    | none => .error .other

/-! ## The orphan pool -/

/-- `removeOrphanBlock`: takes an orphan out of the pool. -/
def removeOrphanBlock (st : NodeState) (orphan : OrphanBlock) : NodeState :=
  { st with orphans := st.orphans.filter fun o =>
      env.blockHash o.block.header ≠ env.blockHash orphan.block.header }

/-- The older one of two orphans. The first one may have left the pool. -/
def olderOrphan (oldest : Option OrphanBlock) (orphan : OrphanBlock) : Option OrphanBlock :=
  match oldest with
  | none => some orphan
  | some o => if orphan.expiration < o.expiration then some orphan else some o

/-- `addOrphanBlock`: drops what has expired, makes room and adds a block. -/
def addOrphanBlock (st : NodeState) (now : ℤ) (block : MsgBlock) : NodeState :=
  let kept := st.orphans.filter fun o => now ≤ o.expiration
  let oldest := kept.foldl olderOrphan st.oldestOrphan
  let st := { st with orphans := kept, oldestOrphan := oldest }
  let st := match oldest with
    | some o => if maxOrphanBlocks < st.orphans.length + 1 then
        { removeOrphanBlock env st o with oldestOrphan := none } else st
    | none => st
  { st with orphans := st.orphans ++ [⟨block, now + orphanLifetime⟩] }

/-! ## Connecting and disconnecting -/

/-- The nodes of a branch, for the walks over blocks. These do not look at stake nodes. -/
def nodesOf (node : Branch) : Chain :=
  node.map fun block => ⟨block, newBlockNode env block, genesisNode⟩

/-- `fetchStakeNode`: the stake node of a node of the main chain, or that of the parent with the
block connected. -/
def stakeNodeAt (chain : Chain) : Branch → Except Err Stake.Node
  | [] => .error .panic
  | block :: below => match chain.find? fun b => b.node.hash = env.blockHash block.header with
    | some b => pure b.stakeNode
    | none => do
      let parentStakeNode ← stakeNodeAt chain below
      fetchStakeNode env (nodesOf env below) parentStakeNode block

/-- `checkConnectBlock`, for a block on top of a node, with a view that may already hold other
blocks. The stake node of the parent is only asked for by a key block. Without a journal the regular
transactions are not taken back. -/
def checkConnectView (db : UtxoSet) (prev : Branch) (parentStakeNode : Except Err Stake.Node)
    (journal : Bool) (c : Connecting) (block : MsgBlock) : Except Err Connecting := do
  let chain := nodesOf env prev
  let node := newBlockNode env block
  match prev with
  | [] => .error (.rule .missingParent)
  | parent :: _ =>
    rejectIf (node.hash = env.blockHash env.params.genesisBlock.header) (Err.rule .missingTx)
    rejectIf (c.view.bestHash ≠ block.header.prevBlock) Err.assertion
    if isKeyBlock env block.header then do
      let stakeNode ← parentStakeNode
      checkKeyBlock env block (Chain.headers chain) stakeNode
    let c ← connectParentTree env db c block parent
    let (c, stakeTreeFees) ← connectStakeTree env db ⟨chain, block, node, false⟩ parent c
    let c ← connectRegularTree env db ⟨chain, block, node, true⟩ parent
      (totalFeesByHash (newBlockNode env parent)) stakeTreeFees c
    let c ← if journal then rollbackRegularTree env ⟨chain, block, node, true⟩ c else pure c
    checkBlockOne env block
    pure { c with view := { c.view with bestHash := node.hash } }

/-- `commit`: fully spent entries are dropped, and the others are no longer modified. -/
def commit (view : UtxoViewpoint) : UtxoViewpoint :=
  { view with entries := view.entries.filterMap fun _ entry => match entry with
    | none => none
    | some entry => if entry.modified && entry.isFullySpent then none
      else some (some { entry with modified := false }) }

/-- `connectBlock`. The price of the next tickets is part of a notification, which is sent after the
block has been connected. -/
def connectBlock (block : MsgBlock) (c : Connecting) : Call Err NodeState UtxoViewpoint := do
  let st ← get
  lift (rejectIf (block.header.prevBlock ≠ nodeHash env st.main) Err.assertion)
  let chain ← lift (Blockchain.connectBlock env st.chain block c)
  set { st with
    chain := chain
    spendJournal :=
      st.spendJournal.insert (env.blockHash block.header) (serializeSpendJournalEntry c.stxos)
    sides := st.sides.filter fun node => nodeHash env node ≠ env.blockHash block.header }
  release
  if env.params.stakeEnabledHeight ≤ block.header.keyHeight then do
    let _ ← lift (env.requiredStakeDifficulty (Chain.headers chain.chain))
  pure (commit c.view)

/-- `disconnectBlock`: takes the tip off the main chain. -/
def disconnectBlock (block : MsgBlock) (view : UtxoViewpoint) :
    Call Err NodeState UtxoViewpoint := do
  let st ← get
  lift (rejectIf (env.blockHash block.header ≠ nodeHash env st.main) Err.assertion)
  match st.chain.below with
  | [] => lift (.error .panic)
  | tip :: below => do
    set { st with
      chain := ⟨tip, below, dbPutUtxoView st.chain.utxos view⟩
      spendJournal := st.spendJournal.erase (env.blockHash block.header)
      sides := st.main :: st.sides }
    release
    pure (commit view)

/-! ## Reorganizations -/

/-- Whether the main chain has a block. -/
def inMainChain (main : Branch) (block : MsgBlock) : Bool :=
  main.any fun b => env.blockHash b.header = env.blockHash block.header

/-- The node where a branch leaves the main chain. -/
def forkNode (main node : Branch) : Branch :=
  node.dropWhile fun block => !inMainChain env main block

/-- `getReorganizeNodes`, the nodes to detach with their parents, newest first. -/
def detachNodes (main node : Branch) : List (MsgBlock × MsgBlock) :=
  (main.zip main.tail).takeWhile fun n =>
    env.blockHash n.1.header ≠ nodeHash env (forkNode env main node)

/-- `getReorganizeNodes`, the nodes to attach, oldest first. -/
def attachNodes (main node : Branch) : List MsgBlock :=
  (node.takeWhile fun block => !inMainChain env main block).reverse

/-- The journal of a block to detach. -/
def fetchDetachStxos (st : NodeState) (n : MsgBlock × MsgBlock) : Except Err (List SpentTxOut) := do
  let stxos ← dbFetchSpendJournalEntry env
    ((st.spendJournal[env.blockHash n.1.header]?).getD []) n.1 n.2
  rejectIf (stxos.length ≠ countSpentOutputs env n.1 n.2) Err.assertion
  pure stxos

/-- The step of the check of `reorganizeChain` for a block to detach. The journals are kept for
later. -/
def checkDetach (st : NodeState) (s : UtxoViewpoint × List (List SpentTxOut))
    (n : MsgBlock × MsgBlock) :
    Except Err (UtxoViewpoint × List (List SpentTxOut)) := do
  let stxos ← fetchDetachStxos env st n
  let c ← disconnectTransactions env st.chain.utxos ⟨s.1, stxos⟩ n.1 n.2
  pure (c.view, s.2 ++ [stxos])

/-- The loop of the check of `reorganizeChain` over the blocks to attach, on top of a node. -/
def checkAttach (db : UtxoSet) :
    Branch → Except Err Stake.Node → UtxoViewpoint → List MsgBlock → Except Err PUnit
  | _, _, _, [] => pure ⟨⟩
  | prev, stakeNode, view, block :: blocks => do
    let c ← checkConnectView env db prev stakeNode false ⟨view, []⟩ block
    let stakeNode := do
      let parentStakeNode ← stakeNode
      fetchStakeNode env (nodesOf env prev) parentStakeNode block
    checkAttach db (block :: prev) stakeNode c.view blocks

/-- The view that `reorganizeChain` starts with. -/
def reorganizeView (st : NodeState) : UtxoViewpoint := ⟨∅, nodeHash env st.main, .prevRegular⟩

/-- The check of `reorganizeChain`, with the journals of the blocks to detach. Without a block to
attach it reads a nil node. -/
def checkReorganize (st : NodeState) (node : Branch) : Except Err (List (List SpentTxOut)) := do
  let detach := detachNodes env st.main node
  let attach := attachNodes env st.main node
  let fork := forkNode env st.main node
  let (view, stxos) ← detach.foldlM (checkDetach env st) (reorganizeView env st, [])
  checkAttach env st.chain.utxos fork (stakeNodeAt env st.chain.chain fork) view attach
  rejectIf (attach = []) Err.panic
  pure stxos

/-- The step of `reorganizeChain` that disconnects a block. -/
def detachBlock (view : UtxoViewpoint) (n : (MsgBlock × MsgBlock) × List SpentTxOut) :
    Call Err NodeState UtxoViewpoint := do
  let st ← get
  let view ← lift (fetchInputUtxos env st.chain.utxos view n.1.1 n.1.2)
  let c ← lift (disconnectTransactions env st.chain.utxos ⟨view, n.2⟩ n.1.1 n.1.2)
  disconnectBlock env n.1.1 c.view

/-- The step of `reorganizeChain` that connects a block. -/
def attachBlock (view : UtxoViewpoint) (block : MsgBlock) : Call Err NodeState UtxoViewpoint := do
  let st ← get
  let parent ← lift (fetchBlockFromHash env st block.header.prevBlock)
  let c ← lift (connectTransactions env st.chain.utxos ⟨view, []⟩ block parent)
  connectBlock env block c

/-- `reorganizeChain`: checks the branch, then detaches and attaches block by block. -/
def reorganizeChain (node : Branch) : Call Err NodeState PUnit := do
  let st ← get
  let stxos ← lift (checkReorganize env st node)
  release
  let view ← ((detachNodes env st.main node).zip stxos).foldlM (detachBlock env)
    (reorganizeView env st)
  let _ ← (attachNodes env st.main node).foldlM (attachBlock env) view

/-- `ForceHeadReorganization`: replaces the tip by one of its siblings. -/
def forceHeadReorganization (formerBest newBest : Hash) : Call Err NodeState PUnit := do
  let st ← get
  lift (rejectIf (formerBest = newBest) Err.other)
  lift (rejectIf (nodeHash env st.main ≠ formerBest) (Err.rule .forceReorgWrongChain))
  match st.node env newBest with
  | none => lift (.error (.rule .forceReorgMissingChild))
  | some node => reorganizeChain env node

/-! ## Accepting a block -/

/-- `workSum` of a node: only key blocks have work. -/
def workSum (node : Branch) : ℤ := (node.map fun block => Index.blockWork env block.header).sum

/-- The branch of `connectBestChain` for a block that extends the main chain. -/
def extendMain (block : MsgBlock) : Call Err NodeState PUnit := do
  let st ← get
  lift (prevKeyHashExists env block.header st.chain.tip.block.header)
  let c ← lift (checkConnectBlock env st.chain.utxos st.chain.tip st.chain.below block)
  let _ ← connectBlock env block c

/-- `connectBestChain`: extends the main chain, stays on a side chain or reorganizes. -/
def connectBestChain (prev : Branch) (block : MsgBlock) : Call Err NodeState Bool := do
  let st ← get
  if block.header.prevBlock = nodeHash env st.main then do
    extendMain env block
    pure true
  else do
    set { st with sides := st.sides ++ [block :: prev] }
    if workSum env (block :: prev) ≤ workSum env st.main then pure false
    else do
      reorganizeChain env (block :: prev)
      pure true

/-- The limit of `maybeAcceptBlock` on the micro blocks that follow a key block. -/
def checkMicroPerKey (st : NodeState) (block : MsgBlock) : Except Err PUnit :=
  if isKeyBlock env block.header then pure ⟨⟩
  else if block.header.prevKeyBlock = 0 then
    rejectIf (env.params.maxMicroPerKey < block.header.height) (Err.rule .highHash)
  else do
    let prevKeyBlock ← fetchBlockFromHash env st block.header.prevKeyBlock
    rejectIf ((env.params.maxMicroPerKey : ℤ) <
      (block.header.height : ℤ) - prevKeyBlock.header.height)
      (Err.rule .highHash)

/-- The checks of `maybeAcceptBlock`, with the node of the parent. The stake node of an old block is
looked up. -/
def checkAccept (st : NodeState) (block : MsgBlock) : Except Err Branch :=
  match st.node env block.header.prevBlock with
  | none => .error .other
  | some [] => .error .panic
  | some (parent :: below) => do
    checkMicroPerKey env st block
    checkBlockContext env block parent.header ((parent :: below).map MsgBlock.header)
    if block.header.height + Index.minMemoryNodes < st.chain.tip.block.header.height then do
      let _ ← stakeNodeAt env st.chain.chain (block :: parent :: below)
    pure (parent :: below)

/-- `maybeAcceptBlock`: checks a block against its parent and connects it. -/
def maybeAcceptBlock (block : MsgBlock) : Call Err NodeState Bool := do
  let st ← get
  let prev ← lift (checkAccept env st block)
  let isMainChain ← connectBestChain env prev block
  release
  pure isMainChain

/-- The first orphan that waits for a block. -/
def waitingOrphan (st : NodeState) (hash : Hash) : Option OrphanBlock :=
  st.orphans.find? fun orphan => orphan.block.header.prevBlock = hash

/-- `processOrphans`, over the hashes of the blocks that were accepted. Each turn takes an orphan or
a hash; orphans that other calls add meanwhile are not among the turns. -/
def processOrphans : ℕ → List Hash → Call Err NodeState PUnit
  | _, [] => pure ⟨⟩
  | 0, _ :: _ => lift (.error .outOfFuel)
  | fuel + 1, hash :: hashes => do
    let st ← get
    match waitingOrphan st hash with
    | none => processOrphans fuel hashes
    | some orphan => do
      set (removeOrphanBlock env st orphan)
      let _ ← maybeAcceptBlock env orphan.block
      processOrphans fuel (hash :: hashes ++ [env.blockHash orphan.block.header])

/-- What a call of `ProcessBlock` is given: the block, the time of the node's peers and that of its
own clock. -/
structure Delivery where
  block : MsgBlock
  adjustedTime : ℤ
  now : ℤ

/-- `findPreviousCheckpoint`: the header of the last checkpoint on the main chain. -/
def findPreviousCheckpoint (st : NodeState) : Except Err (Option BlockHeader) := do
  let headers := st.main.map MsgBlock.header
  match ← env.previousCheckpoint headers with
  | none => pure none
  | some height => match headers.find? fun header => header.height = height with
    | none => .error .other
    | some header => pure (some header)

/-- The checks of `ProcessBlock` against the last checkpoint: no block is older, and none has an
easier target than the time since the checkpoint allows. -/
def checkCheckpoint (st : NodeState) (header : BlockHeader) : Except Err PUnit := do
  match ← findPreviousCheckpoint env st with
  | none => pure ⟨⟩
  | some checkpoint => do
    rejectIf (header.timestamp < checkpoint.timestamp) (Err.rule .checkpointTimeTooOld)
    let requiredBits :=
      env.easiestDifficulty checkpoint.bits (header.timestamp - checkpoint.timestamp)
    rejectIf (compactToBig requiredBits < compactToBig header.bits) (Err.rule .difficultyTooLow)

/-- The checks of `ProcessBlock` that come before the parent of the block is looked up. -/
def checkNew (st : NodeState) (d : Delivery) : Except Err PUnit := do
  let hash := env.blockHash d.block.header
  rejectIf (blockExists env st hash) (Err.rule .duplicateBlock)
  rejectIf (∃ orphan ∈ st.orphans, env.blockHash orphan.block.header = hash)
    (Err.rule .duplicateBlock)
  checkBlockSanity env d.block d.adjustedTime false
  checkCheckpoint env st d.block.header

/-- `ProcessBlock`: whether the block is on the main chain, and whether it is an orphan. -/
def processBlock (d : Delivery) : Call Err NodeState (Bool × Bool) := do
  let st ← get
  lift (checkNew env st d)
  match st.node env d.block.header.prevBlock with
  | none => do
    set (addOrphanBlock env st d.now d.block)
    pure (false, true)
  | some prev => do
    let parent ← lift (match prev with
      | [] => .error .panic
      | parent :: _ => .ok parent)
    lift (prevKeyHashExists env d.block.header parent.header)
    let isMainChain ← maybeAcceptBlock env d.block
    processOrphans env (2 * st.orphans.length + 2) [env.blockHash d.block.header]
    pure (isMainChain, false)

/-- The state of a new node. -/
def newNode : NodeState := ⟨genesisState env, ∅, [], [], none⟩

/-- The calls that change the chain. -/
inductive Request
  | process (d : Delivery)
  | forceHead (formerBest newBest : Hash)

/-- The calls that change the state. -/
def serve : Request → Call Err NodeState PUnit
  | .process d => do
    let _ ← processBlock env d
  | .forceHead formerBest newBest => forceHeadReorganization env formerBest newBest

/-- The state after some requests, one after the other. -/
def serveAll (st : NodeState) (requests : List Request) : NodeState :=
  requests.foldl (fun st request => ((serve env request).run st).1) st

/-- The states that a node reaches by calls that do not overlap, where each call meets a condition
in the state in which it is made. -/
inductive Reachable (P : NodeState → Request → Prop) : NodeState → Prop
  | new : Reachable P (newNode env)
  | call {st : NodeState} {request : Request} (hst : Reachable P st) (hP : P st request) :
    Reachable P ((serve env request).run st).1

end Hcashd.Blockchain.Process
