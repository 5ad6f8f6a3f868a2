import Hcashd.Blockchain.Context
import Hcashd.Stake.Disconnect

/-!
# The stake nodes of the block tree

`fetchStakeNode` and `getReorganizeNodes` with the caches of the block nodes. A block node is given
by its branch: the node itself, then the nodes that its parents lead to, down to the genesis block.
What the source drops from nodes to save memory is a state of its own, `Memory`, by the hash of the
node.

`stakeNodeOf` is what the caches are caches of: the stake nodes that connecting the blocks of a
branch, from the genesis block on, leads to. `fetchStakeNode` undoes the blocks of the main chain
down to the fork and connects those above it, and by `NodeInv.disconnectNode` it comes to the stake
node of the fork. But it always goes one node below the blocks to undo, so that a node above the
best one is connected to the wrong stake node unless a cached one comes in between.
-/

namespace Hcashd.Blockchain.Tree

open Lib Stake Function

/-- `blockNode`, what `fetchStakeNode` reads of it and never changes. -/
structure TreeNode extends BlockNode where
  inMainChain : Bool
  ticketsSpent : List Hash
  ticketsRevoked : List Hash
  deriving DecidableEq

/-- `blockNode`, what may be missing in memory. -/
structure NodeCache where
  stakeNode : Option Stake.Node
  newTickets : Option (List Hash)
  stakeUndoData : Option (List UndoTicketData)
  -- Whether the link to the parent is there.
  hasParent : Bool

/-- What is cached for each block. -/
abbrev Memory := Hash → NodeCache

/-- A stake node is cached. -/
def Memory.setStakeNode (m : Memory) (hash : Hash) (s : Stake.Node) : Memory :=
  update m hash { m hash with stakeNode := some s }

/-- The caches after a stake node was connected. -/
def Memory.setConnected (m : Memory) (hash : Hash) (s : Stake.Node) (newTickets : List Hash) :
    Memory :=
  update m hash { m hash with stakeNode := some s, newTickets := some newTickets }

/-- A node is linked to its parent. -/
def Memory.setParent (m : Memory) (hash : Hash) : Memory :=
  update m hash { m hash with hasParent := true }

/-- How far `findNode` looks for the parent of a node. -/
def maxSearchDepth : ℕ := 2880

/-- `getReorganizeNodes`, the nodes to attach, and the hash of the node where the walk ends. -/
def findFork (m : Memory) : TreeNode → List TreeNode → List TreeNode → Hash × List TreeNode
  | ancestor, [], attach => (ancestor.hash, attach)
  | ancestor, parent :: below, attach =>
    if (m ancestor.hash).hasParent = false ∨ ancestor.inMainChain then (ancestor.hash, attach)
    else findFork m parent below (ancestor :: attach)

/-- `getReorganizeNodes`, the nodes to detach. A parent that is not linked is looked for by
`findNode`, `distance` nodes below the best one, and the genesis block is always found. -/
def findDetach (hash : Hash) :
    Memory → ℕ → TreeNode → List TreeNode → Except Err (List TreeNode × Memory)
  | m, _, n, [] => if n.hash = hash then pure ([], m) else .error .other
  | m, distance, n, parent :: below =>
    if n.hash = hash then pure ([], m)
    else do
      rejectIf ((m n.hash).hasParent = false ∧ maxSearchDepth ≤ distance ∧ below ≠ []) Err.other
      let (detach, m) ← findDetach hash (m.setParent n.hash) (distance + 1) parent below
      pure (n :: detach, m)

/-- `getReorganizeNodes`: the nodes to detach and to attach. -/
def getReorganizeNodes (m : Memory) (best : TreeNode) (bestBelow : List TreeNode) (node : TreeNode)
    (below : List TreeNode) : Except Err (List TreeNode × List TreeNode × Memory) := do
  let (hash, attach) := findFork m node below []
  let (detach, m) ← findDetach hash m 1 best bestBelow
  pure (detach, attach, m)

variable (env : Env) (store : Chain) (db : TicketDB)

/-- The new tickets of a node that are not cached. The blocks that `fetchBlockFromHash` finds are
those of `store`. -/
def newTicketsOf (n : TreeNode) : Except Err (List Hash) :=
  if n.isKeyBlock then fetchNewTicketsForNode env store n.header else pure []

/-- The stake node after that of the parent. -/
def connectStakeNode (s : Stake.Node) (m : Memory) (n : TreeNode) :
    Except Err (Stake.Node × Memory) := do
  let newTickets ← match (m n.hash).newTickets with
    | some newTickets => pure newTickets
    | none => newTicketsOf env store n
  let s ← connectNode env.hashH env.params env.lotteryFuel s n.header n.ticketsSpent
    n.ticketsRevoked (some newTickets) n.isKeyBlock
  pure (s, m.setConnected n.hash s newTickets)

/-- `fetchStakeNode`, the step to the node `n` below `current`. -/
def detachStakeNode (current : TreeNode) (s : Stake.Node) (m : Memory) (n : TreeNode) :
    Except Err (Stake.Node × Memory) :=
  match (m n.hash).stakeNode with
  | some s => pure (s, m)
  | none => do
    let s ← disconnectNode env.hashH env.params env.lotteryFuel s n.header (m n.hash).stakeUndoData
      (m n.hash).newTickets current.isKeyBlock (some db)
    pure (s, m.setStakeNode n.hash s)

/-- `fetchStakeNode`, the loop over the nodes to detach. -/
def detachLoop :
    TreeNode → Stake.Node → Memory → List TreeNode → Except Err (TreeNode × Stake.Node × Memory)
  | current, s, m, [] => pure (current, s, m)
  | current, s, m, n :: detach => do
    let (s, m) ← detachStakeNode env db current s m n
    detachLoop n s m detach

/-- `fetchStakeNode`, the step to the node `n` above the last one. -/
def attachStakeNode (s : Stake.Node) (m : Memory) (n : TreeNode) :
    Except Err (Stake.Node × Memory) :=
  match (m n.hash).stakeNode with
  | some s => pure (s, m)
  | none => connectStakeNode env store s m n

/-- `fetchStakeNode`, the loop over the nodes to attach. -/
def attachLoop : Stake.Node → Memory → List TreeNode → Except Err (Stake.Node × Memory)
  | s, m, [] => pure (s, m)
  | s, m, n :: attach => do
    let (s, m) ← attachStakeNode env store s m n
    attachLoop s m attach

/-- The node after `n` in a branch. -/
def parentIn (branch : List TreeNode) (n : TreeNode) : Option TreeNode :=
  (branch.dropWhile fun a => a.hash ≠ n.hash)[1]?

/-- `current.parent`, which is a nil pointer where the link is missing. -/
def linkedParent (m : Memory) (branch : List TreeNode) (n : TreeNode) : Except Err TreeNode :=
  match parentIn branch n with
  | some parent => if (m n.hash).hasParent then pure parent else .error .panic
  | none => .error .panic

/-- The part of `fetchStakeNode` that attaches. -/
def reattachStakeNode (node fork : TreeNode) (s : Stake.Node) (m : Memory)
    (attach : List TreeNode) :
    Except Err (Stake.Node × Memory) :=
  if attach.isEmpty then do
    rejectIf (fork.hash ≠ node.hash ∨ fork.height ≠ node.height) Err.assertion
    pure (s, m)
  else attachLoop env store s m attach

/-- The part of `fetchStakeNode` that walks to the node. -/
def walkStakeNode (m : Memory) (best : TreeNode) (bestBelow : List TreeNode) (node : TreeNode)
    (below : List TreeNode) : Except Err (Stake.Node × Memory) := do
  let (detach, attach, m) ← getReorganizeNodes m best bestBelow node below
  match (m best.hash).stakeNode with
  | none => .error .panic
  | some s => do
    let (current, s, m) ← detachLoop env db best s m detach
    let parent ← linkedParent m (best :: bestBelow) current
    let (s, m) ← detachStakeNode env db current s m parent
    reattachStakeNode env store node parent s m attach

/-- `fetchStakeNode`, for the node with the branch `node :: below` when the main chain is
`best :: bestBelow`. -/
def fetchStakeNode (m : Memory) (best : TreeNode) (bestBelow : List TreeNode) (node : TreeNode)
    (below : List TreeNode) : Except Err (Stake.Node × Memory) :=
  match (m node.hash).stakeNode, below with
  | some s, _ => pure (s, m)
  | none, [] => walkStakeNode env store db m best bestBelow node []
  | none, parent :: below =>
    match (m node.hash).hasParent, (m parent.hash).stakeNode with
    | true, some s => connectStakeNode env store s m node
    | _, _ => walkStakeNode env store db m best bestBelow node (parent :: below)

end Hcashd.Blockchain.Tree
