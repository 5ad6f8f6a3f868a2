import Hcashd.Stake.Tickets

/-!
# The ticket database

`blockchain/stake/internal/ticketdb/chainio.go` and the functions of `tickets.go` that write a stake
node to the database and load it back. The database has a bucket of tickets for each of the three
treaps, two buckets with the log and the new tickets of each height, and a record of the best state;
all values are bytes. The record of the database's version and date is not modelled: it is only
reported.
-/

namespace Hcashd.Stake

open Lib

/-- `undoBitFlagsToByte`: four flags in a byte. -/
def undoBitFlagsToByte (missed revoked spent expired : Bool) : UInt8 :=
  (if missed then 1 else 0) ||| (if revoked then 2 else 0) ||| (if spent then 4 else 0) |||
    (if expired then 8 else 0)

/-- `undoBitFlagsFromByte`: the flags of a byte. -/
def undoBitFlagsFromByte (b : UInt8) : Bool × Bool × Bool × Bool :=
  (decide (0 < b &&& 1), decide (0 < b &&& 2), decide (0 < b &&& 4), decide (0 < b &&& 8))

/-- The value that `DbPutTicket` writes for a ticket. -/
def serializeTicket (v : Value) : List UInt8 :=
  leBytes 4 v.height ++ leBytes 4 v.keyHeight ++
    [undoBitFlagsToByte v.missed v.revoked v.spent v.expired]

/-- The value that `DbLoadAllTickets` reads for a ticket. -/
def deserializeTicket (bs : List UInt8) : Value :=
  let (height, bs) := readUint 4 bs
  let (keyHeight, bs) := readUint 4 bs
  let (missed, revoked, spent, expired) := undoBitFlagsFromByte (bs.headD 0)
  ⟨height, keyHeight, missed, revoked, spent, expired⟩

/-- One entry of `serializeBlockUndoData`. -/
def serializeUndo (utd : UndoTicketData) : List UInt8 :=
  utd.ticketHash.bytes ++ leBytes 4 utd.ticketHeight ++ leBytes 4 utd.ticketKeyHeight ++
    [undoBitFlagsToByte utd.missed utd.revoked utd.spent utd.expired]

/-- One entry of `deserializeBlockUndoData`. -/
def deserializeUndo (bs : List UInt8) : UndoTicketData :=
  let (hash, bs) := Hash.read bs
  let (height, bs) := readUint 4 bs
  let (keyHeight, bs) := readUint 4 bs
  let (missed, revoked, spent, expired) := undoBitFlagsFromByte (bs.headD 0)
  ⟨hash, height, keyHeight, missed, revoked, spent, expired⟩

/-- The number of bytes of a record. -/
def undoTicketDataSize : ℕ := 37 + 4

/-- `serializeBlockUndoData`: the records one after the other. -/
def serializeBlockUndoData (utds : List UndoTicketData) : List UInt8 := utds.flatMap serializeUndo

/-- A value of a bucket that is a list of records of one size. -/
def deserializeRecords {α : Type} (size : ℕ) (decode : List UInt8 → α) (b : List UInt8) :
    Except Err (List α) :=
  if b.length = 0 then pure []
  else do
    rejectIf (b.length < size) Err.other
    rejectIf (b.length % size ≠ 0) Err.other
    pure (decodeRecords size decode (b.length / size) b)

/-- `deserializeBlockUndoData`: the records of bytes. -/
def deserializeBlockUndoData (b : List UInt8) : Except Err (List UndoTicketData) :=
  deserializeRecords undoTicketDataSize deserializeUndo b

/-- `serializeTicketHashes`: the hashes one after the other. -/
def serializeTicketHashes (ths : List Hash) : List UInt8 := ths.flatMap Hash.bytes

/-- `deserializeTicketHashes`: the hashes of bytes. -/
def deserializeTicketHashes (b : List UInt8) : Except Err (List Hash) :=
  deserializeRecords 32 Hash.ofBytes b

/-- `BestChainState`: the tip of the stake nodes. -/
structure BestChainState where
  hash : Hash
  height : ℕ
  keyHeight : ℕ
  live : ℕ
  missed : ℕ
  revoked : ℕ
  perBlock : ℕ
  nextWinners : List Hash
  deriving DecidableEq, Repr

/-- The number of bytes without the winners. -/
def minimumBestChainStateSize : ℕ := 32 + 4 + 4 + 4 + 8 + 8 + 2

/-- `serializeBestChainState`. The winners are written into a buffer for as many hashes as a block
has votes. -/
def serializeBestChainState (state : BestChainState) : List UInt8 :=
  state.hash.bytes ++ (leBytes 4 state.height ++ (leBytes 4 state.keyHeight ++
    (leBytes 4 state.live ++ (leBytes 8 state.missed ++ (leBytes 8 state.revoked ++
      (leBytes 2 state.perBlock ++ (state.nextWinners.flatMap Hash.bytes ++
        List.replicate (32 * (state.perBlock - state.nextWinners.length)) 0)))))))

/-- `deserializeBestChainState`: the tip that bytes stand for. -/
def deserializeBestChainState (serializedData : List UInt8) : Except Err BestChainState := do
  rejectIf (serializedData.length < minimumBestChainStateSize) Err.other
  let (hash, bs) := Hash.read serializedData
  let (height, bs) := readUint 4 bs
  let (keyHeight, bs) := readUint 4 bs
  let (live, bs) := readUint 4 bs
  let (missed, bs) := readUint 8 bs
  let (revoked, bs) := readUint 8 bs
  let (perBlock, bs) := readUint 2 bs
  pure ⟨hash, height, keyHeight, live, missed, revoked, perBlock,
    decodeRecords 32 Hash.ofBytes perBlock bs⟩

/-- A bucket of tickets, by hash. -/
abbrev TicketBucket := Std.ExtTreeMap Hash (List UInt8)

/-- A bucket with one value for each height, whose keys are 32-bit numbers. -/
abbrev HeightBucket := Std.ExtTreeMap ℕ (List UInt8)

/-- The three buckets of tickets. -/
@[ext]
structure TicketBuckets where
  live : TicketBucket
  missed : TicketBucket
  revoked : TicketBucket

/-- The ticket database. -/
@[ext]
structure Database where
  tickets : TicketBuckets
  blockUndo : HeightBucket
  ticketsInBlock : HeightBucket
  bestState : Option (List UInt8)

/-- `DbPutTicket`: stores a ticket. -/
def dbPutTicket (bucket : TicketBucket) (hash : Hash) (v : Value) : TicketBucket :=
  bucket.insert hash (serializeTicket v)

/-- `DbDeleteTicket`: drops a ticket that must be there. -/
def dbDeleteTicket (bucket : TicketBucket) (hash : Hash) : Except Err TicketBucket :=
  if hash ∈ bucket then .ok (bucket.erase hash) else .error .other

/-- `DbLoadAllTickets`: all tickets of a bucket. -/
def dbLoadAllTickets (bucket : TicketBucket) : Except Err TicketTreap := do
  rejectIf (bucket.toList.any fun item => item.2.length < 9) Err.other
  pure (bucket.map fun _ bytes => deserializeTicket bytes)

/-- What a bucket holds for a height. -/
def dbFetchHeight (bucket : HeightBucket) (height : ℕ) : Except Err (List UInt8) :=
  match bucket[u32 height]? with
  | none => .error .other
  | some v => .ok v

/-- `DbFetchBlockUndoData`: the undo data at a height. -/
def dbFetchBlockUndoData (db : Database) (height : ℕ) : Except Err (List UndoTicketData) := do
  let v ← dbFetchHeight db.blockUndo height
  deserializeBlockUndoData v

/-- `DbFetchNewTickets`: the new tickets at a height. -/
def dbFetchNewTickets (db : Database) (height : ℕ) : Except Err (List Hash) := do
  let v ← dbFetchHeight db.ticketsInBlock height
  deserializeTicketHashes v

/-- `DbFetchBestState`: the stored tip. -/
def dbFetchBestState (db : Database) : Except Err BestChainState :=
  match db.bestState with
  | none => .error .other
  | some v => deserializeBestChainState v

/-- `DbCreate`: empty buckets. -/
def dbCreate : Database := ⟨⟨∅, ∅, ∅⟩, ∅, ∅, none⟩

/-- The slice that the winners are copied into; more winners than a block has votes are a run-time
panic. -/
def paddedWinners (p : Params) (winners : List Hash) : Except Err (List Hash) := do
  rejectIf (p.ticketsPerBlock < winners.length) Err.panic
  pure (winners ++ List.replicate (p.ticketsPerBlock - winners.length) 0)

/-- The end of the functions that write a node: its log and new tickets at its height, and the best
state. -/
def dbPutNode (db : Database) (p : Params) (node : Node) (hash : Hash) (keyHeight : ℕ)
    (tickets : TicketBuckets) : Except Err Database := do
  let nextWinners ← paddedWinners p node.nextWinners
  pure {
    tickets := tickets
    blockUndo :=
      db.blockUndo.insert (u32 node.height) (serializeBlockUndoData node.databaseUndoUpdate)
    ticketsInBlock := db.ticketsInBlock.insert (u32 node.height)
      (serializeTicketHashes (node.databaseBlockTickets.getD []))
    bestState := some (serializeBestChainState
      { hash := hash, height := node.height, keyHeight := keyHeight, live := node.liveTickets.size,
        missed := node.missedTickets.size, revoked := node.revokedTickets.size,
        perBlock := p.ticketsPerBlock, nextWinners := nextWinners }) }

/-- `InitDatabaseState`, which leaves the key height of the genesis block at zero. -/
def initDatabaseState (p : Params) (genesisHash : Hash) : Except Err Database :=
  dbPutNode dbCreate p genesisNode genesisHash 0 dbCreate.tickets

/-- `WriteConnectedBestNode`, the loop over the log. -/
def writeConnectedTicket (t : TicketBuckets) (undo : UndoTicketData) : Except Err TicketBuckets :=
  let k := undo.ticketHash
  let v := undo.value
  if !undo.missed && !undo.revoked && !undo.spent then
    -- A new ticket.
    pure { t with live := dbPutTicket t.live k v }
  else if undo.missed && undo.revoked then do
    -- A missed ticket that is revoked.
    let missed ← dbDeleteTicket t.missed k
    pure { t with missed := missed, revoked := dbPutTicket t.revoked k v }
  else if undo.missed && !undo.revoked then do
    -- A live ticket that is missed.
    let live ← dbDeleteTicket t.live k
    pure { t with live := live, missed := dbPutTicket t.missed k { v with missed := true } }
  else if undo.spent then do
    -- A live ticket that votes.
    let live ← dbDeleteTicket t.live k
    pure { t with live := live }
  else .error (.stake .memoryCorruption)

/-- `WriteConnectedBestNode`: writes what a node has changed. -/
def writeConnectedBestNode (p : Params) (db : Database) (node : Node) (hash : Hash) :
    Except Err Database := do
  let tickets ← node.databaseUndoUpdate.foldlM writeConnectedTicket db.tickets
  dbPutNode db p node hash node.keyHeight tickets

/-- `WriteDisconnectedBestNode`, the loop over the log of the child. -/
def writeDisconnectedTicket (t : TicketBuckets) (undo : UndoTicketData) :
    Except Err TicketBuckets :=
  let k := undo.ticketHash
  let v := undo.value
  if !undo.missed && !undo.revoked && !undo.spent then do
    -- A ticket that was new in the block.
    let live ← dbDeleteTicket t.live k
    pure { t with live := live }
  else if undo.missed && undo.revoked then do
    -- A missed ticket that was revoked.
    let revoked ← dbDeleteTicket t.revoked k
    pure { t with revoked := revoked, missed := dbPutTicket t.missed k { v with revoked := false } }
  else if undo.missed && !undo.revoked then do
    -- A live ticket that was missed.
    let missed ← dbDeleteTicket t.missed k
    pure { t with
      missed := missed, live := dbPutTicket t.live k { v with missed := false, expired := false } }
  else if undo.spent then
    -- A live ticket that voted.
    pure { t with live := dbPutTicket t.live k { v with spent := false } }
  else .error (.stake .memoryCorruption)

/-- The loop of `WriteDisconnectedBestNode` that drops a bucket's values for the heights above a
node. -/
def dropAbove (bucket : HeightBucket) (formerHeight height : ℕ) : HeightBucket :=
  (List.range' (height + 1) (formerHeight - height)).reverse.foldl (fun bucket i =>
    bucket.erase (u32 i)) bucket

/-- `WriteDisconnectedBestNode`. The best state that it writes has no key height, which leaves that
field at zero. -/
def writeDisconnectedBestNode (p : Params) (db : Database) (node : Node) (hash : Hash)
    (childUndoData : List UndoTicketData) : Except Err Database := do
  let formerBest ← dbFetchBestState db
  let tickets ← childUndoData.foldlM writeDisconnectedTicket db.tickets
  dbPutNode { db with
      blockUndo := dropAbove db.blockUndo formerBest.height node.height
      ticketsInBlock := dropAbove db.ticketsInBlock formerBest.height node.height }
    p node hash 0 tickets

/-- `LoadBestNode`, the winners and the final state. -/
def loadLottery (hashH : List UInt8 → Hash) (p : Params) (fuel : ℕ) (node : Node)
    (state : BestChainState) (header : BlockHeader) : Except Err Node := do
  let (_, prng) ← findTicketIdxs hashH fuel node.liveTickets.size p.ticketsPerBlock
    (newHash256PRNG hashH header.bytes)
  pure { node with
    nextWinners := state.nextWinners
    finalState := lotteryFinalState hashH state.nextWinners prng }

/-- Whether a block is a key block, by its hash and the bits of its header. -/
def isKeyHash (blockHash : Hash) (header : BlockHeader) : Bool :=
  decide (hashToBig blockHash ≤ compactToBig header.bits)

/-- `LoadBestNode`: the node of the stored tip. -/
def loadBestNode (hashH : List UInt8 → Hash) (p : Params) (fuel : ℕ) (db : Database)
    (height keyHeight : ℕ) (blockHash : Hash) (header : BlockHeader) : Except Err Node := do
  let state ← dbFetchBestState db
  rejectIf (state.hash ≠ blockHash ∨ state.height ≠ height) (Err.stake .databaseCorrupt)
  let liveTickets ← dbLoadAllTickets db.tickets.live
  rejectIf (liveTickets.size ≠ state.live) (Err.stake .databaseCorrupt)
  let missedTickets ← dbLoadAllTickets db.tickets.missed
  rejectIf (missedTickets.size ≠ state.missed) (Err.stake .databaseCorrupt)
  let revokedTickets ← dbLoadAllTickets db.tickets.revoked
  rejectIf (revokedTickets.size ≠ state.revoked) (Err.stake .databaseCorrupt)
  let databaseUndoUpdate ← dbFetchBlockUndoData db height
  let databaseBlockTickets ← dbFetchNewTickets db height
  let node : Node := ⟨height, keyHeight, liveTickets, missedTickets, revokedTickets,
    databaseUndoUpdate, some databaseBlockTickets, [], List.replicate 6 0⟩
  if p.stakeValidationHeight ≤ realKeyHeight header (isKeyHash blockHash header) + 1 then
    loadLottery hashH p fuel node state header
  else pure node

end Hcashd.Stake
