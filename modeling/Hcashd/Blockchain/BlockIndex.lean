import Hcashd.Blockchain.Env

/-!
# The index of block nodes

How `chain.go` creates, links, drops and reloads block nodes, and what it keeps in the database
about the best one. Nodes are objects with a number, the position of their data in `nodes`, which
never changes once a node was created; the links between them are tables by number. `index` and
`depNodes` find nodes by their hash and by the hash of their parent.

A call that fails may have changed the index before it failed, by loading or removing nodes, and the
checks of a block load the ancestors that they look at before it is accepted: that is what the steps
`load` and `remove` are for. Connecting, disconnecting and starting load the ancestors that the
median time is taken over themselves. Two lists have no counterpart in the source: `loadedByChild` records the blocks whose node
was reloaded from a child's, with the child, and `disconnected` the blocks that were disconnected.
-/

namespace Hcashd.Blockchain.Index

open Lib Function

/-- `CalcWork`: the expected number of hashes that a target stands for. -/
def calcWork (bits : ℕ) : ℤ :=
  let difficultyNum := compactToBig bits
  if difficultyNum ≤ 0 then 0 else 2^256 / (difficultyNum + 1)

/-- The data of a node. -/
structure WorkNode where
  header : BlockHeader
  workSum : ℤ

/-- The block nodes of a chain and its database. -/
structure ChainIndex where
  nodes : List WorkNode
  parent : ℕ → Option ℕ
  children : ℕ → List ℕ
  index : Hash → Option ℕ
  depNodes : Hash → List ℕ
  bestNode : ℕ
  -- The database: the blocks, and the hash and the work sum of the best state.
  blocks : Hash → Option BlockHeader
  bestState : Hash × ℤ
  loadedByChild : List (BlockHeader × BlockHeader)
  disconnected : List BlockHeader

/-- Reading a node. -/
def ChainIndex.node (st : ChainIndex) (id : ℕ) : Except Err WorkNode :=
  match st.nodes[id]? with
  | some n => pure n
  | none => .error .panic

/-- The number of the next node. -/
def ChainIndex.next (st : ChainIndex) : ℕ := st.nodes.length

/-- A new node without links. -/
def ChainIndex.alloc (st : ChainIndex) (n : WorkNode) : ChainIndex :=
  { st with
    nodes := st.nodes ++ [n]
    parent := update st.parent st.next none
    children := update st.children st.next [] }

/-- A node is linked to its parent. -/
def ChainIndex.setParent (st : ChainIndex) (id : ℕ) (parent : Option ℕ) : ChainIndex :=
  { st with parent := update st.parent id parent }

/-- A node is appended to the children of another one. -/
def ChainIndex.addChild (st : ChainIndex) (id child : ℕ) : ChainIndex :=
  { st with children := update st.children id (st.children id ++ [child]) }

variable (env : Env)

/-- The hash of a node is that of its header. -/
def WorkNode.hash (n : WorkNode) : Hash := env.blockHash n.header

/-- The hash of the genesis block. -/
def genesisHash : Hash := env.blockHash env.params.genesisBlock.header

/-- `newBlockNode`, the work of the block. -/
def blockWork (header : BlockHeader) : ℤ :=
  if isKeyBlock env header then calcWork header.bits else 0

/-- `b.index[hash] = node` and `b.depNodes[prevHash] = append(b.depNodes[prevHash], node)`. -/
def ChainIndex.register (st : ChainIndex) (id : ℕ) (header : BlockHeader) : ChainIndex :=
  { st with
    index := update st.index (env.blockHash header) (some id)
    depNodes := update st.depNodes header.prevBlock (st.depNodes header.prevBlock ++ [id]) }

/-- The function that loads a node by its hash. -/
abbrev Loader := ChainIndex → Hash → Except Err (ℕ × ChainIndex)

/-- The parent of a node, loaded where the link is missing. -/
def parentOrLoad (load : Loader) (st : ChainIndex) (id : ℕ) (n : WorkNode) :
    Except Err (ℕ × ChainIndex) :=
  match st.parent id with
  | some parent => pure (parent, st)
  | none => load st n.header.prevBlock

/-- `findNode`, the loop, at a node and with the number of steps that are left. -/
def findLoop (load : Loader) (nodeHash : Hash) :
    ℕ → ChainIndex → ℕ → Except Err (Option ℕ × ChainIndex)
  | 0, st, _ => pure (none, st)
  | steps + 1, st, id => do
    let n ← st.node id
    if n.hash env = genesisHash env then pure (none, st)
    else if n.hash env = nodeHash then pure (some id, st)
    else do
      let (parent, st) ← parentOrLoad load st id n
      findLoop load nodeHash steps st parent

/-- How far `findNode` looks. -/
def maxSearchDepth : ℕ := 2880

/-- `findNode`: the node of a hash of the main chain, which is loaded if need be. -/
def findNode (load : Loader) (st : ChainIndex) (nodeHash : Hash) : Except Err (ℕ × ChainIndex) := do
  let best ← st.node st.bestNode
  if nodeHash = best.hash env then pure (st.bestNode, st)
  else do
    let (found, st) ← findLoop env load nodeHash maxSearchDepth st st.bestNode
    if nodeHash = genesisHash env then load st nodeHash
    else match found with
      | some id => pure (id, st)
      | none => .error .other

/-- `loadBlockNode`, the node under an existing parent. -/
def loadUnder (st : ChainIndex) (header : BlockHeader) (parentId : ℕ) :
    Except Err (ℕ × ChainIndex) := do
  let parentNode ← st.node parentId
  let id := st.next
  let st := st.alloc ⟨header, parentNode.workSum + blockWork env header⟩
  pure (id, ((st.addChild parentId id).setParent id (some parentId)).register env id header)

/-- `loadBlockNode`, the node over existing children: the work sum is that of the first child
without the work of the node. -/
def loadOver (st : ChainIndex) (header : BlockHeader) (child : ℕ) (childNodes : List ℕ) :
    Except Err (ℕ × ChainIndex) := do
  let childNode ← st.node child
  let st := { st with loadedByChild := st.loadedByChild ++ [(header, childNode.header)] }
  let id := st.next
  let st := st.alloc ⟨header, childNode.workSum - blockWork env header⟩
  let st := (child :: childNodes).foldl (fun st c => (st.setParent c (some id)).addChild id c) st
  pure (id, st.register env id header)

/-- `loadBlockNode`. A block without parent or children in memory is put under a node that
`findNode` finds, which loads nodes itself. -/
def loadBlockNode : ℕ → Loader
  | 0, _, _ => .error .outOfFuel
  | fuel + 1, st, hash =>
    match st.blocks hash with
    | none => .error .other
    | some header =>
      match st.index header.prevBlock, st.depNodes hash with
      | some parentId, _ => loadUnder env st header parentId
      | none, child :: childNodes => loadOver env st header child childNodes
      | none, [] =>
        match findNode env (loadBlockNode fuel) st header.prevBlock with
        | .error _ => .error .assertion
        | .ok (foundParent, st) => loadUnder env st header foundParent

/-- `getPrevNodeFromNode`, nil for the genesis block. -/
def getPrevNodeFromNode (load : Loader) (st : ChainIndex) (id : ℕ) :
    Except Err (Option ℕ × ChainIndex) := do
  let n ← st.node id
  match st.parent id with
  | some parent => pure (some parent, st)
  | none =>
    if n.hash env = genesisHash env then pure (none, st)
    else do
      let (prev, st) ← load st n.header.prevBlock
      pure (some prev, st)

/-- `getPrevNodeFromBlock`, nil for a block without a parent. -/
def getPrevNodeFromBlock (load : Loader) (st : ChainIndex) (prevHash : Hash) :
    Except Err (Option ℕ × ChainIndex) :=
  if prevHash = 0 then pure (none, st)
  else if prevHash = genesisHash env then do
    let (prev, st) ← findNode env load st prevHash
    pure (some prev, st)
  else match st.index prevHash with
    | some prev => pure (some prev, st)
    | none => do
      let (prev, st) ← load st prevHash
      pure (some prev, st)

/-- `getPrevKeyNodeFromNode`, the loop, with a bound on its steps. -/
def prevKeyLoop (load : Loader) : ℕ → ChainIndex → ℕ → Except Err (ℕ × ChainIndex)
  | 0, _, _ => .error .outOfFuel
  | steps + 1, st, id => do
    let (prev, st) ← getPrevNodeFromNode env load st id
    match prev with
    | none => .error .panic
    | some prev => do
      let n ← st.node prev
      if isKeyBlock env n.header then pure (prev, st) else prevKeyLoop load steps st prev

/-- `getPrevKeyNodeFromNode`: the key block that a header names, loaded if need be. -/
def getPrevKeyNodeFromNode (load : Loader) (st : ChainIndex) (id : ℕ) :
    Except Err (Option ℕ × ChainIndex) := do
  let n ← st.node id
  if n.hash env = genesisHash env ∨ n.header.prevKeyBlock = 0 then pure (none, st)
  else match st.index n.header.prevKeyBlock with
    | some key => pure (some key, st)
    | none => do
      let (key, st) ← prevKeyLoop env load st.nodes.length st id
      pure (some key, st)

/-- `removeChildNode`: the first child with the hash of the node is dropped. -/
def removeChildNode (st : ChainIndex) (children : List ℕ) (n : WorkNode) : List ℕ :=
  children.eraseP fun child =>
    decide ((st.nodes[child]?.map fun c => c.hash env) = some (n.hash env))

/-- `removeBlockNode`: takes a node out of the index and unlinks all of its children. -/
def removeBlockNode (st : ChainIndex) (id : ℕ) : Except Err ChainIndex := do
  let n ← st.node id
  rejectIf (st.parent id ≠ none) Err.assertion
  pure { st with
    index := update st.index (n.hash env) none
    parent := (st.children id).foldl (fun parent child => update parent child none) st.parent
    children := update st.children id []
    depNodes := update st.depNodes n.header.prevBlock
      (removeChildNode env st (st.depNodes n.header.prevBlock) n) }

/-- How many key blocks `pruneBlockNodes` keeps. -/
def minMemoryNodes : ℕ := 2880

/-- `pruneBlockNodes`, the walk to the new root: `keys` more key blocks are passed. -/
def findRoot : ℕ → ℕ → ChainIndex → ℕ → Except Err (Option ℕ)
  | _, 0, _, id => pure (some id)
  | 0, _ + 1, _, _ => .error .outOfFuel
  | steps + 1, keys + 1, st, id => do
    let n ← st.node id
    let keys := if isKeyBlock env n.header then keys else keys + 1
    match st.parent id with
    | none => pure none
    | some parent => findRoot steps keys st parent

/-- The nodes that the parents of a node lead to, the last one first. -/
def ancestorsOf : ℕ → ChainIndex → ℕ → List ℕ → Except Err (List ℕ)
  | 0, _, _, _ => .error .outOfFuel
  | steps + 1, st, id, nodes =>
    match st.parent id with
    | none => pure nodes
    | some parent => ancestorsOf steps st parent (parent :: nodes)

/-- The new root as a key block: a micro block is replaced by the key block before it, or by nothing
if that one is not found. -/
def keyRoot (load : Loader) (st : ChainIndex) (root : ℕ) : Except Err (Option ℕ × ChainIndex) := do
  let n ← st.node root
  if isKeyBlock env n.header then pure (some root, st)
  else match getPrevKeyNodeFromNode env load st root with
    | .ok r => pure r
    | .error .panic => .error .panic
    | .error _ => pure (none, st)

/-- `pruneBlockNodes`: keeps the nodes of the last blocks in memory and removes the others. -/
def pruneBlockNodes (load : Loader) (st : ChainIndex) : Except Err ChainIndex := do
  let root ← findRoot env (st.nodes.length * minMemoryNodes) (minMemoryNodes - 1) st st.bestNode
  match root with
  | none => pure st
  | some root => do
    let (root, st) ← keyRoot env load st root
    match root with
    | none => pure st
    | some root => do
      let deleteNodes ← ancestorsOf (st.nodes.length + 1) st root []
      deleteNodes.foldlM (removeBlockNode env) st

/-- `pruneChainIfNeeded`, which asks a clock. -/
def pruneChainIfNeeded (load : Loader) (needed : Bool) (st : ChainIndex) : Except Err ChainIndex :=
  if needed then pruneBlockNodes env load st else pure st

/-- How many blocks the median time is taken over. -/
def medianTimeBlocks : ℕ := 11

/-- `calcPastMedianTime`, the loop, which loads the ancestors of a node. -/
def loadAncestors (load : Loader) : ℕ → ChainIndex → Option ℕ → Except Err ChainIndex
  | 0, st, _ | _, st, none => pure st
  | steps + 1, st, some id => do
    let (prev, st) ← getPrevNodeFromNode env load st id
    loadAncestors load steps st prev

/-- `connectBlock`: the best state, the block, and the node as the end of the chain. -/
def connectBlock (load : Loader) (st : ChainIndex) (id : ℕ) : Except Err ChainIndex := do
  let n ← st.node id
  let best ← st.node st.bestNode
  rejectIf (n.header.prevBlock ≠ best.hash env) Err.assertion
  rejectIf (st.parent id = none) Err.panic
  let st ← loadAncestors env load medianTimeBlocks st (some id)
  pure { st.register env id n.header with
    bestState := (n.hash env, n.workSum)
    blocks := update st.blocks (n.hash env) (some n.header)
    bestNode := id }

/-- `disconnectBlock`: the best state has the hash of the parent and the work sum of the node. -/
def disconnectBlock (load : Loader) (st : ChainIndex) (id : ℕ) : Except Err ChainIndex := do
  let n ← st.node id
  let best ← st.node st.bestNode
  rejectIf (n.hash env ≠ best.hash env) Err.assertion
  let (prev, st) ← getPrevNodeFromNode env load st id
  let st ← loadAncestors env load medianTimeBlocks st prev
  match prev, st.parent id with
  | some prev, some parent => do
    let prevNode ← st.node prev
    pure { st with
      bestState := (prevNode.hash env, n.workSum)
      bestNode := parent
      disconnected := st.disconnected ++ [n.header] }
  | _, _ => .error .panic

/-- `maybeAcceptBlock` and `connectBestChain` for a block that is not known: the node under the node
of its parent, at the end of the main chain or beside it. -/
def maybeAcceptBlock (load : Loader) (st : ChainIndex) (header : BlockHeader) (prune : Bool) :
    Except Err ChainIndex := do
  rejectIf (st.index (env.blockHash header) ≠ none ∨ (st.blocks (env.blockHash header)).isSome)
    (Err.rule .duplicateBlock)
  let (prevNode, st) ← getPrevNodeFromBlock env load st header.prevBlock
  match prevNode with
  | none => .error .panic
  | some prev => do
    let st ← pruneChainIfNeeded env load prune st
    let prevNode ← st.node prev
    let best ← st.node st.bestNode
    let id := st.next
    let st := (st.alloc ⟨header, prevNode.workSum + blockWork env header⟩).setParent id (some prev)
    if header.prevBlock = best.hash env then do
      let st ← connectBlock env load st id
      pure (st.addChild prev id)
    else
      pure ({ st with index := update st.index (env.blockHash header) (some id) }.addChild prev id)

/-- `createChainState`: an index that holds the genesis block. -/
def createChainState : ChainIndex where
  nodes := [⟨env.params.genesisBlock.header, blockWork env env.params.genesisBlock.header⟩]
  parent := fun _ => none
  children := fun _ => []
  index := update (fun _ => none) (genesisHash env) (some 0)
  depNodes := fun _ => []
  bestNode := 0
  blocks := update (fun _ => none) (genesisHash env) (some env.params.genesisBlock.header)
  bestState := (genesisHash env, blockWork env env.params.genesisBlock.header)
  loadedByChild := []
  disconnected := []

/-- `initChainState`, from what the database holds. -/
def initChainState (load : Loader) (st : ChainIndex) : Except Err ChainIndex :=
  match st.blocks st.bestState.1 with
  | none => .error .other
  | some header => loadAncestors env load medianTimeBlocks {
      nodes := [⟨header, st.bestState.2⟩]
      parent := fun _ => none
      children := fun _ => []
      index := update (fun _ => none) (env.blockHash header) (some 0)
      depNodes := update (fun _ => []) header.prevBlock [0]
      bestNode := 0
      blocks := st.blocks
      bestState := st.bestState
      loadedByChild := st.loadedByChild
      disconnected := st.disconnected } (some 0)

/-- What can happen to the index. -/
inductive Op
  | accept (header : BlockHeader) (prune : Bool)
  | connect (id : ℕ)
  | disconnect (id : ℕ)
  | prune
  | remove (id : ℕ)
  | load (hash : Hash)
  | restart

/-- One step, where loading a node may nest `fuel` deep. -/
def step (fuel : ℕ) (st : ChainIndex) : Op → Except Err ChainIndex
  | .accept header prune => maybeAcceptBlock env (loadBlockNode env fuel) st header prune
  | .connect id => connectBlock env (loadBlockNode env fuel) st id
  | .disconnect id => disconnectBlock env (loadBlockNode env fuel) st id
  | .prune => pruneBlockNodes env (loadBlockNode env fuel) st
  | .remove id => removeBlockNode env st id
  | .load hash => do
    let (_, st) ← loadBlockNode env fuel st hash
    pure st
  | .restart => initChainState env (loadBlockNode env fuel) st

end Hcashd.Blockchain.Index
