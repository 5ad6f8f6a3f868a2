import Hcashd.Blockchain.Env
import Hcashd.Lib.Updates

/-!
# The view of unspent outputs

`utxoviewpoint.go`, and the part of `chainio.go` that stores what a view says. The database holds
one entry for each transaction that has an unspent output. A view is a piece of it that a block is
checked against: it has been asked for some transactions, and holds an entry for each that it found
and a nil entry for the others. Connecting a transaction spends the outputs that it names and adds
its own; what was spent is also pushed on a journal, newest first, from which it can be restored.
-/

namespace Hcashd.Blockchain

open Lib

/-- `StakeViewpoint`: which transactions a view is asked to load the inputs of. -/
inductive StakeViewpoint
  | prevRegular | currentStake | currentRegular
  deriving DecidableEq, Repr

/-- `utxoOutput`: an output, and whether it is spent. -/
structure UtxoOutput where
  pkScript : List UInt8
  amount : ℤ
  scriptVersion : ℕ
  spent : Bool
  deriving DecidableEq, Repr

/-- `UtxoEntry`: the outputs of a transaction and what is known of it. -/
structure UtxoEntry where
  sparseOutputs : Std.ExtTreeMap ℕ UtxoOutput
  -- The outputs of a ticket purchase, for the votes and revocations that spend it.
  stakeExtra : List TxOut
  txVersion : ℕ
  height : ℕ
  index : ℕ
  txType : Stake.TxType
  isCoinBase : Bool
  hasExpiry : Bool
  modified : Bool

namespace UtxoEntry

/-- `IsOutputSpent`: an output that is not there counts as spent. -/
def isOutputSpent (entry : UtxoEntry) (outputIndex : ℕ) : Bool :=
  match entry.sparseOutputs[outputIndex]? with
  | none => true
  | some output => output.spent

/-- `SpendOutput`: marks an output as spent. -/
def spendOutput (entry : UtxoEntry) (outputIndex : ℕ) : UtxoEntry :=
  match entry.sparseOutputs[outputIndex]? with
  | none => entry
  | some output =>
    if output.spent then entry
    else { entry with
      modified := true
      sparseOutputs := entry.sparseOutputs.insert outputIndex { output with spent := true } }

/-- `IsFullySpent`: every output that is there is spent. -/
def isFullySpent (entry : UtxoEntry) : Bool :=
  entry.sparseOutputs.toList.all fun (_, output) => output.spent

/-- `AmountByIndex`: zero where there is no output. -/
def amountByIndex (entry : UtxoEntry) (outputIndex : ℕ) : ℤ :=
  (entry.sparseOutputs[outputIndex]?.map UtxoOutput.amount).getD 0

/-- `ScriptVersionByIndex`: zero where there is no output. -/
def scriptVersionByIndex (entry : UtxoEntry) (outputIndex : ℕ) : ℕ :=
  (entry.sparseOutputs[outputIndex]?.map UtxoOutput.scriptVersion).getD 0

/-- `PkScriptByIndex`: nil where there is no output. -/
def pkScriptByIndex (entry : UtxoEntry) (outputIndex : ℕ) : List UInt8 :=
  (entry.sparseOutputs[outputIndex]?.map UtxoOutput.pkScript).getD []

/-- What the database keeps of an entry: `serializeUtxoEntry` leaves out the spent outputs. -/
def stored (entry : UtxoEntry) : UtxoEntry :=
  { entry with
    modified := false
    sparseOutputs := entry.sparseOutputs.filter fun _ output => !output.spent }

end UtxoEntry

/-- The utxo set of the database. -/
abbrev UtxoSet := Std.ExtTreeMap Hash UtxoEntry

/-- `spentTxOut`. The fields after the script are only set by the spend of the last unspent output
of a transaction. -/
structure SpentTxOut where
  amount : ℤ
  scriptVersion : ℕ
  pkScript : List UInt8
  txVersion : ℕ
  height : ℕ
  index : ℕ
  isCoinBase : Bool
  hasExpiry : Bool
  txType : Stake.TxType
  txFullySpent : Bool
  stakeExtra : List TxOut
  deriving Repr

/-- `UtxoViewpoint`. A transaction that the view was not asked for has no entry, and one that was
asked for and not found has a nil entry. -/
structure UtxoViewpoint where
  entries : Std.ExtTreeMap Hash (Option UtxoEntry)
  bestHash : Hash
  stakeView : StakeViewpoint

namespace UtxoViewpoint

/-- `LookupEntry`: the entry of a transaction that the view holds. -/
def lookupEntry (view : UtxoViewpoint) (txHash : Hash) : Option UtxoEntry :=
  view.entries[txHash]?.join

/-- The view with another entry for a transaction. -/
def setEntry (view : UtxoViewpoint) (txHash : Hash) (entry : UtxoEntry) : UtxoViewpoint :=
  { view with entries := view.entries.insert txHash (some entry) }

end UtxoViewpoint

variable (env : Env)

/-- `newUtxoEntry` as the source calls it for a transaction of a block, with the outputs of a ticket
purchase kept for its votes. -/
def newTxEntry (tx : MsgTx) (blockHeight blockIndex : ℕ) : UtxoEntry where
  sparseOutputs := ∅
  stakeExtra := if txType env tx = .sStx then tx.txOut else []
  txVersion := tx.version
  height := blockHeight
  index := blockIndex
  txType := txType env tx
  isCoinBase := isCoinBaseTx tx
  hasExpiry := tx.expiry ≠ 0
  modified := false

/-- The outputs of a transaction that are not provably unspendable, each at its index. -/
def spendableOuts (tx : MsgTx) : List (ℕ × Option UtxoOutput) :=
  tx.txOut.zipIdx.filterMap fun (out, i) =>
    if env.script.isUnspendable out.value out.pkScript then none
    else some (i, some ⟨out.pkScript, out.value, out.version, false⟩)

/-- `AddTxOuts`: adds the outputs of a transaction that can be spent. -/
def addTxOuts (view : UtxoViewpoint) (tx : MsgTx) (blockHeight blockIndex : ℕ) : UtxoViewpoint :=
  let entry := match view.lookupEntry (env.txHash tx) with
    | none => newTxEntry env tx blockHeight blockIndex
    | some entry => { entry with height := blockHeight, index := blockIndex }
  view.setEntry (env.txHash tx)
    { entry with
      modified := true
      sparseOutputs := applyUpdates entry.sparseOutputs (spendableOuts env tx) }

/-- The journal entry of `connectTransaction` for an input, given the entry it has just spent
from. -/
def spentTxOut (entry : UtxoEntry) (txIn : TxIn) : SpentTxOut where
  amount := txIn.valueIn
  scriptVersion := entry.scriptVersionByIndex txIn.previousOutPoint.index
  pkScript := entry.pkScriptByIndex txIn.previousOutPoint.index
  txVersion := if entry.isFullySpent then entry.txVersion else 0
  height := if entry.isFullySpent then entry.height else 0
  index := if entry.isFullySpent then entry.index else 0
  isCoinBase := entry.isFullySpent && entry.isCoinBase
  hasExpiry := entry.isFullySpent && entry.hasExpiry
  txType := if entry.isFullySpent then entry.txType else .regular
  txFullySpent := entry.isFullySpent
  stakeExtra := if entry.isFullySpent ∧ entry.txType = .sStx then entry.stakeExtra else []

/-- A view with the journal of what was spent in it, newest first. -/
structure Connecting where
  view : UtxoViewpoint
  stxos : List SpentTxOut

/-- The step of `connectTransaction` for one input. -/
def spendInput (c : Connecting) (txIn : TxIn) : Except Err Connecting :=
  match c.view.lookupEntry txIn.previousOutPoint.hash with
  | none => .error .assertion
  | some entry =>
    let entry := entry.spendOutput txIn.previousOutPoint.index
    .ok ⟨c.view.setEntry txIn.previousOutPoint.hash entry, spentTxOut entry txIn :: c.stxos⟩

/-- The loop of `connectTransaction` over the inputs. A coinbase spends nothing. -/
def spendInputs (c : Connecting) (tx : MsgTx) : Except Err Connecting :=
  if isCoinBaseTx tx then pure c else (spendingInputs env tx).foldlM spendInput c

/-- `connectTransaction`: spends the inputs and adds the outputs. -/
def connectTransaction (c : Connecting) (tx : MsgTx) (blockHeight blockIndex : ℕ) :
    Except Err Connecting := do
  let c ← spendInputs env c tx
  pure { c with view := addTxOuts env c.view tx blockHeight blockIndex }

/-- The loop of `connectTransaction` over a tree of a block, each transaction with its place. -/
def connectTree (c : Connecting) (txs : List MsgTx) (blockHeight : ℕ) : Except Err Connecting :=
  txs.zipIdx.foldlM (fun c (tx, i) => connectTransaction env c tx blockHeight i) c

/-- The loop of `fetchUtxosMain` over the requested transactions. -/
def fetchUtxosMain (db : UtxoSet) (view : UtxoViewpoint) (txSet : List Hash) : UtxoViewpoint :=
  txSet.foldl (fun view hash =>
    if hash ∈ view.entries then view
    else { view with entries := view.entries.insert hash db[hash]? }) view

/-- `txInFlight[hash]` with the transaction at that index: the map is filled from front to back, so
the last transaction of a hash is in it. -/
def txInFlight (transactions : List MsgTx) (hash : Hash) : Option (MsgTx × ℕ) :=
  transactions.zipIdx.reverse.find? fun (tx, _) => env.txHash tx = hash

/-- The step of `fetchInputUtxos` for one input of the regular transaction at place `place` of the
tree: the outputs of an earlier transaction of the tree are added to the view, and any other
transaction is requested. -/
def fetchRegularInput (transactions : List MsgTx) (blockHeight place : ℕ)
    (s : UtxoViewpoint × List Hash) (txIn : TxIn) : UtxoViewpoint × List Hash :=
  let request := if txIn.previousOutPoint.hash ∈ s.1.entries then s
    else (s.1, txIn.previousOutPoint.hash :: s.2)
  match txInFlight env transactions txIn.previousOutPoint.hash with
  | some (originTx, inFlightIndex) =>
    if inFlightIndex < place then (addTxOuts env s.1 originTx blockHeight inFlightIndex, s.2)
    else request
  | none => request

/-- The cases of `fetchInputUtxos` for a regular tree. Slicing off more coinbases than there are
transactions is a run-time panic. -/
def fetchRegularInputs (db : UtxoSet) (view : UtxoViewpoint) (transactions : List MsgTx)
    (blockHeight offset : ℕ) : Except Err UtxoViewpoint := do
  rejectIf (transactions.length < offset) Err.panic
  let (view, txNeededSet) := (transactions.zipIdx.drop offset).foldl
    (fun s (tx, place) =>
      tx.txIn.foldl (fetchRegularInput env transactions blockHeight place) s) (view, [])
  pure (fetchUtxosMain db view txNeededSet)

/-- The case of `fetchInputUtxos` for a stake tree. -/
def fetchStakeInputs (db : UtxoSet) (view : UtxoViewpoint) (sTransactions : List MsgTx) :
    UtxoViewpoint :=
  let txNeededSet :=
    (sTransactions.flatMap (spendingInputs env)).map (fun txIn => txIn.previousOutPoint.hash)
  fetchUtxosMain db view (txNeededSet.filter (fun hash => hash ∉ view.entries))

/-- `fetchInputUtxos`: loads what the transactions of a tree refer to. -/
def fetchInputUtxos (db : UtxoSet) (view : UtxoViewpoint) (block parent : MsgBlock) :
    Except Err UtxoViewpoint :=
  match view.stakeView with
  | .prevRegular => fetchRegularInputs env db view parent.transactions parent.header.height
      (coinbases env parent.header)
  | .currentStake => pure (fetchStakeInputs env db view block.sTransactions)
  | .currentRegular => fetchRegularInputs env db view block.transactions block.header.height
      (coinbases env block.header)

/-- `checkDupTxs`, which the switch `CheckForDuplicateHashes` turns off. -/
def checkDupTxs (db : UtxoSet) (view : UtxoViewpoint) (txSet : List MsgTx) :
    Except Err UtxoViewpoint :=
  if env.checkForDuplicateHashes then do
    let view := fetchUtxosMain db view (txSet.map env.txHash)
    txSet.forM fun tx =>
      rejectIf (∃ entry ∈ view.lookupEntry (env.txHash tx), entry.isFullySpent = false)
        (Err.rule .overwriteTx)
    pure view
  else pure view

/-- Whether the regular transactions of the parent are part of the chain at a block: the block
approves them, or the parent is a micro block. -/
def regularTxTreeValid (block parent : MsgBlock) : Bool :=
  blockValid block.header.voteBits || !isKeyBlock env parent.header

/-- `SetStakeViewpoint` and then `fetchInputUtxos`. -/
def fetchFor (db : UtxoSet) (c : Connecting) (viewpoint : StakeViewpoint)
    (block parent : MsgBlock) :
    Except Err Connecting := do
  let view ← fetchInputUtxos env db { c.view with stakeView := viewpoint } block parent
  pure { c with view := view }

/-- The entry of a transaction without outputs, new if the view has none, which the disconnecting
loops put in place before they restore what the transaction spent. -/
def clearTx (view : UtxoViewpoint) (tx : MsgTx) (blank : UtxoEntry) : UtxoViewpoint :=
  view.setEntry (env.txHash tx)
    { (view.lookupEntry (env.txHash tx)).getD blank with modified := true, sparseOutputs := ∅ }

/-- Brings back the output of an entry that an input spent: an output that the entry still has is
marked unspent, and any other is rebuilt from the input and the journal. -/
def restoreOutput (entry : UtxoEntry) (txIn : TxIn) (stxo : SpentTxOut) : UtxoEntry :=
  let output := match entry.sparseOutputs[txIn.previousOutPoint.index]? with
    | none => ⟨stxo.pkScript, txIn.valueIn, stxo.scriptVersion, false⟩
    | some output => { output with spent := false }
  { entry with
    modified := true
    sparseOutputs := entry.sparseOutputs.insert txIn.previousOutPoint.index output }

/-- The entry that a journal entry describes, for a transaction that was fully spent. -/
def revivedEntry (txVersion : ℕ) (stxo : SpentTxOut) (stakeExtra : List TxOut) : UtxoEntry where
  sparseOutputs := ∅
  stakeExtra := stakeExtra
  txVersion := txVersion
  height := stxo.height
  index := stxo.index
  txType := stxo.txType
  isCoinBase := stxo.isCoinBase
  hasExpiry := stxo.hasExpiry
  modified := false

/-- The step of `disconnectTransactionSlice` for one input of a transaction. Reading past the first
entry of the journal is a run-time panic. -/
def unspendSliceInput (tx : MsgTx) (c : Connecting) (txIn : TxIn) : Except Err Connecting :=
  match c.stxos with
  | [] => .error .panic
  | stxo :: stxos =>
    let stakeExtra := if txType env tx = .sStx then stxo.stakeExtra else []
    let entry :=
      (c.view.lookupEntry txIn.previousOutPoint.hash).getD
        (revivedEntry stxo.txVersion stxo stakeExtra)
    .ok ⟨c.view.setEntry txIn.previousOutPoint.hash (restoreOutput entry txIn stxo), stxos⟩

/-- The step of `disconnectTransactionSlice` for one transaction. -/
def disconnectSliceTx (height : ℕ) (secondCoinbase : Bool) (c : Connecting) (tx : MsgTx)
    (txIdx : ℕ) : Except Err Connecting :=
  let c := { c with view := clearTx env c.view tx (newTxEntry env tx height txIdx) }
  if txIdx = 0 ∨ (txIdx = 1 ∧ secondCoinbase) then pure c
  else tx.txIn.reverse.foldlM (unspendSliceInput env tx) c

/-- `disconnectTransactionSlice`, with what it leaves of the journal. An empty journal ends it
before it has looked at any transaction. -/
def disconnectTransactionSlice (c : Connecting) (transactions : List MsgTx) (height : ℕ)
    (secondCoinbase : Bool) : Except Err Connecting :=
  if c.stxos.isEmpty then pure c
  else transactions.zipIdx.reverse.foldlM (fun c (tx, i) =>
    disconnectSliceTx env height secondCoinbase c tx i) c

/-- What `dbPutUtxoView` writes for an entry of a view: a modified entry that is fully spent is
removed. -/
def utxoUpdate (item : Hash × Option UtxoEntry) : Option (Hash × Option UtxoEntry) :=
  match item.2 with
  | none => none
  | some entry =>
    if entry.modified then some (item.1, if entry.isFullySpent then none else some entry.stored)
    else none

/-- `dbPutUtxoView`: writes the entries that were changed. -/
def dbPutUtxoView (db : UtxoSet) (view : UtxoViewpoint) : UtxoSet :=
  applyUpdates db (view.entries.toList.filterMap utxoUpdate)

end Hcashd.Blockchain
