import Hcashd.Chaincfg
import Hcashd.Stake.Lottery

/-!
# Stake nodes

`blockchain/stake/tickets.go`: the ticket state after each block, how a block moves tickets between
the live, missed and revoked treaps and logs the moves, and how the log takes them back. The loops
of `connectNode` and `disconnectNode` are folds, one definition for each loop's body.

Heights are naturals: the wrap-around of the source's 32-bit counters, after 2^32 blocks, is outside
the model. Slices that the source tells apart from nil are options: `none` is nil, which
`disconnectNode` takes as missing, and `some []` is empty.
-/

namespace Hcashd.Stake

open Lib

/-- `UndoTicketData`: how a ticket was before a block. -/
structure UndoTicketData where
  ticketHash : Hash
  ticketHeight : ℕ
  ticketKeyHeight : ℕ
  missed : Bool
  revoked : Bool
  spent : Bool
  expired : Bool
  deriving DecidableEq, Repr

/-- `stake.Node`. The network's parameters, the same for all nodes, are an argument of the
functions. -/
@[ext]
structure Node where
  height : ℕ
  keyHeight : ℕ
  liveTickets : TicketTreap
  missedTickets : TicketTreap
  revokedTickets : TicketTreap
  -- The moves of the node's own block, in the order in which they were made, and its new tickets.
  databaseUndoUpdate : List UndoTicketData
  databaseBlockTickets : Option (List Hash)
  nextWinners : List Hash
  finalState : List UInt8

/-- `genesisNode`: no tickets. -/
def genesisNode : Node where
  height := 0
  keyHeight := 0
  liveTickets := ∅
  missedTickets := ∅
  revokedTickets := ∅
  databaseUndoUpdate := []
  databaseBlockTickets := some []
  nextWinners := []
  finalState := List.replicate 6 0

/-- `safeGet`: an error where there is no ticket. -/
def safeGet (t : TicketTreap) (k : Hash) : Except Err Value :=
  match t[k]? with
  | some v => .ok v
  | none => .error (.stake .missingTicket)

/-- `safePut`: an error where there is a ticket. -/
def safePut (t : TicketTreap) (k : Hash) (v : Value) : Except Err TicketTreap :=
  if k ∈ t then .error (.stake .duplicateTicket) else .ok (t.insert k v)

/-- `safeDelete`: an error where there is no ticket. -/
def safeDelete (t : TicketTreap) (k : Hash) : Except Err TicketTreap :=
  if k ∈ t then .ok (t.erase k) else .error (.stake .missingTicket)

/-- The log entry for a ticket that was left with value `v`. -/
def undoOf (k : Hash) (v : Value) : UndoTicketData :=
  { ticketHash := k, ticketHeight := v.height, ticketKeyHeight := v.keyHeight, missed := v.missed,
    revoked := v.revoked, spent := v.spent, expired := v.expired }

/-- Append a log entry. -/
def Node.record (c : Node) (k : Hash) (v : Value) : Node :=
  { c with databaseUndoUpdate := c.databaseUndoUpdate ++ [undoOf k v] }

/-- `connectNode`, the loop over the winners: a ticket that votes in the block leaves the live
tickets, one that does not becomes missed. -/
def connectWinner (ticketsSpentInBlock : List Hash) (c : Node) (ticket : Hash) :
    Except Err Node := do
  let v ← safeGet c.liveTickets ticket
  if ticket ∈ ticketsSpentInBlock then
    let v := { v with spent := true, missed := false }
    let live ← safeDelete c.liveTickets ticket
    pure ({ c with liveTickets := live }.record ticket v)
  else
    let v := { v with spent := false, missed := true }
    let live ← safeDelete c.liveTickets ticket
    let missed ← safePut c.missedTickets ticket v
    pure ({ c with liveTickets := live, missedTickets := missed }.record ticket v)

/-- `connectNode`, the loop over the expired tickets, which become missed. -/
def connectExpired (c : Node) (ticket : Hash) : Except Err Node := do
  let v ← safeGet c.liveTickets ticket
  let v := { v with missed := true, expired := true }
  let live ← safeDelete c.liveTickets ticket
  let missed ← safePut c.missedTickets ticket v
  pure ({ c with liveTickets := live, missedTickets := missed }.record ticket v)

/-- `connectNode`, the loop over the revocations, which move missed tickets to the revoked ones. -/
def connectRevoked (c : Node) (ticket : Hash) : Except Err Node := do
  let v ← safeGet c.missedTickets ticket
  let v := { v with revoked := true }
  let missed ← safeDelete c.missedTickets ticket
  let revoked ← safePut c.revokedTickets ticket v
  pure ({ c with missedTickets := missed, revokedTickets := revoked }.record ticket v)

/-- The value of a ticket that is new in the block of `c`. -/
def Node.newValue (c : Node) : Value :=
  { height := c.height, keyHeight := c.keyHeight, missed := false, revoked := false, spent := false,
    expired := false }

/-- `connectNode`, the loop over the new tickets. -/
def connectNew (c : Node) (ticket : Hash) : Except Err Node := do
  let v := c.newValue
  let live ← safePut c.liveTickets ticket v
  pure ({ c with liveTickets := live }.record ticket v)

/-- `toExpireKeyHeight` of `connectNode`. -/
def toExpireKeyHeight (p : Params) (keyHeight : ℕ) : ℕ :=
  if p.ticketExpiry < keyHeight then keyHeight - p.ticketExpiry else 0

/-- The winners of a key block have voted or missed. -/
def connectWinners (node : Node) (ticketsSpentInBlock : List Hash) (isKeyBlock : Bool) (c : Node) :
    Except Err Node :=
  if isKeyBlock then node.nextWinners.foldlM (connectWinner ticketsSpentInBlock) c else pure c

/-- Tickets that are too old are missed. -/
def connectExpiring (p : Params) (isKeyBlock : Bool) (c : Node) : Except Err Node :=
  if isKeyBlock then
    (fetchExpired (toExpireKeyHeight p c.keyHeight) c.liveTickets).foldlM connectExpired c
  else pure c

/-- The part of `connectNode` for blocks from `StakeEnabledHeight` on. -/
def connectStakeEnabled (p : Params) (node c : Node)
    (ticketsSpentInBlock revokedTickets : List Hash)
    (isKeyBlock : Bool) : Except Err Node := do
  rejectIf (¬ ∀ t ∈ ticketsSpentInBlock, t ∈ node.nextWinners) (Err.stake .unknownTicketSpent)
  let c ← connectWinners node ticketsSpentInBlock isKeyBlock c
  let c ← connectExpiring p isKeyBlock c
  revokedTickets.foldlM connectRevoked c

/-- The key height that a block's child has: its own, plus one when it is a key block. -/
def realKeyHeight (header : BlockHeader) (isKeyBlock : Bool) : ℕ :=
  if isKeyBlock then header.keyHeight + 1 else header.keyHeight

section

variable (hashH : List UInt8 → Hash)

/-- The final state of the lottery: the first six bytes of the hash of the winners and of the
generator's state. -/
def lotteryFinalState (winners : List Hash) (prng : Hash256PRNG) : List UInt8 :=
  (hashH (winners.flatMap Hash.bytes ++ (prng.stateHash hashH).bytes)).bytes.take 6

/-- The part of `connectNode` that finds the next winners. A micro block draws as a key block does
but keeps the winners of its parent `node`. -/
def connectLottery (p : Params) (fuel : ℕ) (node c : Node) (header : BlockHeader)
    (isKeyBlock : Bool) :
    Except Err Node := do
  let (idxs, prng) ← findTicketIdxs hashH fuel c.liveTickets.size p.ticketsPerBlock
    (newHash256PRNG hashH header.bytes)
  let nextWinnersKeys ← fetchWinners idxs c.liveTickets
  -- `node.nextWinners[i]` for each `i` below the number of winners drawn.
  rejectIf (isKeyBlock = false ∧ node.nextWinners.length < nextWinnersKeys.length) Err.panic
  let winners := if isKeyBlock then nextWinnersKeys
    else node.nextWinners.take nextWinnersKeys.length
  pure { c with nextWinners := winners, finalState := lotteryFinalState hashH winners prng }

/-- The node that `connectNode` starts from. -/
def Node.child (node : Node) (header : BlockHeader) (newTickets : Option (List Hash)) : Node where
  height := node.height + 1
  keyHeight := header.keyHeight
  liveTickets := node.liveTickets
  missedTickets := node.missedTickets
  revokedTickets := node.revokedTickets
  databaseUndoUpdate := []
  databaseBlockTickets := newTickets
  nextWinners := []
  finalState := List.replicate 6 0

/-- The part of `connectNode` before the lottery: the moves of the block's tickets. -/
def connectTickets (p : Params) (node : Node) (header : BlockHeader)
    (ticketsSpentInBlock revokedTickets : List Hash) (newTickets : Option (List Hash))
    (isKeyBlock : Bool) : Except Err Node :=
  let c := node.child header newTickets
  if p.stakeEnabledHeight ≤ header.keyHeight then do
    let c ← connectStakeEnabled p node c ticketsSpentInBlock revokedTickets isKeyBlock
    (newTickets.getD []).foldlM connectNew c
  else (newTickets.getD []).foldlM connectNew c

/-- `connectNode`: the stake node of the next block. -/
def connectNode (p : Params) (fuel : ℕ) (node : Node) (header : BlockHeader)
    (ticketsSpentInBlock revokedTickets : List Hash) (newTickets : Option (List Hash))
    (isKeyBlock : Bool) : Except Err Node := do
  let c ← connectTickets p node header ticketsSpentInBlock revokedTickets newTickets isKeyBlock
  if p.stakeValidationHeight ≤ realKeyHeight header isKeyBlock + 1 then
    connectLottery hashH p fuel node c header isKeyBlock
  else pure c

/-- The value that a log entry carries. -/
def UndoTicketData.value (undo : UndoTicketData) : Value :=
  { height := undo.ticketHeight, keyHeight := undo.ticketKeyHeight, missed := undo.missed,
    revoked := undo.revoked, spent := undo.spent, expired := undo.expired }

/-- `disconnectNode`, the loop over the log. -/
def undoTicket (r : Node) (undo : UndoTicketData) : Except Err Node :=
  let k := undo.ticketHash
  let v := undo.value
  if !undo.missed && !undo.revoked && !undo.spent then do
    -- All flags are unset: a ticket that was new in the block.
    let live ← safeDelete r.liveTickets k
    pure { r with liveTickets := live }
  else if undo.missed && undo.revoked then do
    -- A missed ticket that was revoked.
    let v := { v with revoked := false }
    let revoked ← safeDelete r.revokedTickets k
    let missed ← safePut r.missedTickets k v
    pure { r with revokedTickets := revoked, missedTickets := missed }
  else if undo.missed && !undo.revoked then do
    -- A live ticket that was missed. An expired ticket was not a winner.
    let winners := if undo.expired then r.nextWinners else r.nextWinners ++ [k]
    let v := { v with missed := false, expired := false }
    let missed ← safeDelete r.missedTickets k
    let live ← safePut r.liveTickets k v
    pure { r with nextWinners := winners, missedTickets := missed, liveTickets := live }
  else if undo.spent then do
    -- A live ticket that voted.
    let v := { v with spent := false }
    let live ← safePut r.liveTickets k v
    pure { r with nextWinners := r.nextWinners ++ [k], liveTickets := live }
  else .error (.stake .memoryCorruption)

/-- What `disconnectNode` reads from the ticket database: the log and the new tickets of the block
at a height. -/
structure TicketDB where
  dbFetchBlockUndoData : ℕ → Except Err (List UndoTicketData)
  dbFetchNewTickets : ℕ → Except Err (List Hash)

/-- `disconnectNode`, the log and new tickets of the parent: from the arguments, or else from the
database. -/
def fetchParentData (node : Node) (parentUtds : Option (List UndoTicketData))
    (parentTickets : Option (List Hash)) (dbTx : Option TicketDB) :
    Except Err (List UndoTicketData × List Hash) :=
  match parentUtds, parentTickets, dbTx with
  | some utds, some tickets, _ => pure (utds, tickets)
  | _, _, none => .error (.stake .missingDatabaseTx)
  | _, _, some db => do
    let utds ← db.dbFetchBlockUndoData (node.height - 1)
    let tickets ← db.dbFetchNewTickets (node.height - 1)
    pure (utds, tickets)

/-- The node that `disconnectNode` starts from. -/
def Node.parent (node : Node) (parentHeader : BlockHeader) (utds : List UndoTicketData)
    (tickets : List Hash) : Node where
  height := node.height - 1
  keyHeight := parentHeader.keyHeight
  liveTickets := node.liveTickets
  missedTickets := node.missedTickets
  revokedTickets := node.revokedTickets
  databaseUndoUpdate := utds
  databaseBlockTickets := some tickets
  nextWinners := []
  finalState := List.replicate 6 0

/-- `disconnectNode`: the stake node of the block before. -/
def disconnectNode (p : Params) (fuel : ℕ) (node : Node) (parentHeader : BlockHeader)
    (parentUtds : Option (List UndoTicketData)) (parentTickets : Option (List Hash))
    (isKeyBlock : Bool) (dbTx : Option TicketDB) : Except Err Node :=
  -- Edge case for the parent being the genesis block.
  if node.height = 1 then .ok genesisNode else do
  let (utds, tickets) ← fetchParentData node parentUtds parentTickets dbTx
  let r ← node.databaseUndoUpdate.foldlM undoTicket (node.parent parentHeader utds tickets)
  let r := if isKeyBlock then r else { r with nextWinners := node.nextWinners }
  if p.stakeValidationHeight ≤ node.keyHeight + 1 then do
    let (_, prng) ← findTicketIdxs hashH fuel r.liveTickets.size p.ticketsPerBlock
      (newHash256PRNG hashH parentHeader.bytes)
    pure { r with finalState := lotteryFinalState hashH r.nextWinners prng }
  else pure r

end

end Hcashd.Stake
