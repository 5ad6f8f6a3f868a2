import Hcashd.Blockchain.Chain

/-!
# The spend journal

How a reorganization moves the utxo set over a block: `connectTransactions` and
`disconnectTransactions` of `utxoviewpoint.go`, and the journal of `chainio.go` that is written by
the one and read by the other. The journal stores neither the amount of a spent output nor where its
transaction stands; they are taken from the input that spent it.

A serialized journal is a list of records here, in the order in which they are written: the reverse
of the order of the spends, as in `Connecting.stxos`. The bytes of a record, and what the
compression of its script can lose, are not part of this model (`StoredJournal`, `Compress`).
-/

namespace Hcashd.Blockchain

open Lib

/-- What `putSpentTxOut` writes of a transaction that was fully spent. -/
structure SpentTx where
  isCoinBase : Bool
  hasExpiry : Bool
  txType : Stake.TxType
  txVersion : ℕ
  -- Written for tickets only.
  stakeExtra : List TxOut
  deriving Repr

/-- What `putSpentTxOut` writes. -/
structure JournalRecord where
  scriptVersion : ℕ
  pkScript : List UInt8
  spentTx : Option SpentTx
  deriving Repr

/-- `putSpentTxOut`: what the journal keeps of a spent output. -/
def putSpentTxOut (stxo : SpentTxOut) : JournalRecord where
  scriptVersion := stxo.scriptVersion
  pkScript := stxo.pkScript
  spentTx := if stxo.txFullySpent then
      some ⟨stxo.isCoinBase, stxo.hasExpiry, stxo.txType, stxo.txVersion,
        if stxo.txType = .sStx then stxo.stakeExtra else []⟩
    else none

/-- `serializeSpendJournalEntry`, with records for their bytes. -/
def serializeSpendJournalEntry (stxos : List SpentTxOut) : List JournalRecord :=
  stxos.map putSpentTxOut

/-- `decodeSpentTxOut`, with the value, the height and the index of the input. -/
def decodeSpentTxOut (r : JournalRecord) (txIn : TxIn) : SpentTxOut where
  amount := txIn.valueIn
  scriptVersion := r.scriptVersion
  pkScript := r.pkScript
  txVersion := (r.spentTx.map SpentTx.txVersion).getD 0
  height := txIn.blockHeight
  index := txIn.blockIndex
  isCoinBase := (r.spentTx.map SpentTx.isCoinBase).getD false
  hasExpiry := (r.spentTx.map SpentTx.hasExpiry).getD false
  txType := (r.spentTx.map SpentTx.txType).getD .regular
  txFullySpent := r.spentTx.isSome
  stakeExtra := (r.spentTx.map SpentTx.stakeExtra).getD []

/-- The loop of `deserializeSpendJournalEntry` over inputs, the last one first. -/
def decodeStxos : List TxIn → List JournalRecord → Except Err (List SpentTxOut)
  | [], _ => pure []
  | _ :: _, [] => .error .other
  | txIn :: inputs, r :: serialized => do
    let stxos ← decodeStxos inputs serialized
    pure (decodeSpentTxOut r txIn :: stxos)

variable (env : Env)

/-- The number of entries that `deserializeSpendJournalEntry` makes room for. -/
def numStxos (txns : List MsgTx) : ℕ :=
  (txns.map fun tx => if txType env tx = .sSGen then 1 else tx.txIn.length).sum

/-- `deserializeSpendJournalEntry`: the records along the inputs that spent them. -/
def deserializeSpendJournalEntry (serialized : List JournalRecord) (txns : List MsgTx) :
    Except Err (List SpentTxOut) :=
  if serialized = [] then do
    rejectIf (numStxos env txns ≠ 0) Err.assertion
    pure []
  else decodeStxos (txns.flatMap (spendingInputs env)).reverse serialized

/-- The transactions whose inputs `dbFetchSpendJournalEntry` expects in the journal of a block. -/
def journalTxns (block parent : MsgBlock) : List MsgTx :=
  (if blockValid block.header.voteBits then parent.transactions.drop (coinbases env parent.header)
    else []) ++ block.sTransactions

/-- `dbFetchSpendJournalEntry`, for what is stored for the block. Slicing off more coinbases than
there are transactions is a run-time panic. -/
def dbFetchSpendJournalEntry (serialized : List JournalRecord) (block parent : MsgBlock) :
    Except Err (List SpentTxOut) := do
  rejectIf (blockValid block.header.voteBits ∧
    parent.transactions.length < coinbases env parent.header) Err.panic
  rejectIf (journalTxns env block parent ≠ [] ∧ serialized = []) Err.assertion
  deserializeSpendJournalEntry env serialized (journalTxns env block parent)

/-- The part of `connectTransactions` for the regular transactions of the parent. Their inputs are
fetched before it is asked whether they are part of the chain. -/
def connectPrevRegular (db : UtxoSet) (c : Connecting) (block parent : MsgBlock) :
    Except Err Connecting :=
  if block.header.height = 0 then pure c
  else do
    let c ← fetchFor env db c .prevRegular block parent
    if regularTxTreeValid env block parent then
      connectTree env c parent.transactions parent.header.height
    else pure c

/-- The step of `connectTransactions` for one stake transaction. -/
def connectStakeTx (db : UtxoSet) (block parent : MsgBlock) (c : Connecting) (tx : MsgTx) (i : ℕ) :
    Except Err Connecting := do
  let c ← fetchFor env db c .currentStake block parent
  connectTransaction env c tx block.header.height i

/-- `connectTransactions`: the parent's regular tree if approved, then the stake tree. -/
def connectTransactions (db : UtxoSet) (c : Connecting) (block parent : MsgBlock) :
    Except Err Connecting := do
  let c ← connectPrevRegular env db c block parent
  let c ← block.sTransactions.zipIdx.foldlM (fun c (tx, i) =>
    connectStakeTx env db block parent c tx i) c
  pure { c with view := { c.view with bestHash := env.blockHash block.header } }

/-- The entry whose output `disconnectTransactions` restores, with the output. An entry that the
view does not have gets the version of the transaction that spent it. -/
def unspentEntry (tx : MsgTx) (view : UtxoViewpoint) (txIn : TxIn) (stxo : SpentTxOut) :
    UtxoEntry :=
  let stakeExtra := if stxo.txType = .sStx then stxo.stakeExtra else []
  restoreOutput ((view.lookupEntry txIn.previousOutPoint.hash).getD
    (revivedEntry tx.version stxo stakeExtra)) txIn stxo

/-- The step of `disconnectTransactions` for one input of a transaction. -/
def unspendInput (tx : MsgTx) (c : Connecting) (txIn : TxIn) : Except Err Connecting :=
  match c.stxos with
  | [] => .error .panic
  | stxo :: stxos => do
    rejectIf ((c.view.lookupEntry txIn.previousOutPoint.hash).isNone ∧ stxo.txFullySpent = false)
      Err.assertion
    pure ⟨c.view.setEntry txIn.previousOutPoint.hash (unspentEntry tx c.view txIn stxo), stxos⟩

/-- The step of `disconnectTransactions` for one stake transaction. -/
def disconnectStakeTx (height : ℕ) (c : Connecting) (tx : MsgTx) (txIdx : ℕ) :
    Except Err Connecting :=
  (spendingInputs env tx).reverse.foldlM (unspendInput tx)
    { c with view := clearTx env c.view tx (newTxEntry env tx height txIdx) }

/-- The entry that `disconnectTransactions` makes for a regular transaction that the view does not
have. -/
def newRegularEntry (tx : MsgTx) (height txIdx : ℕ) (isCoinBase : Bool) : UtxoEntry where
  sparseOutputs := ∅
  stakeExtra := []
  txVersion := tx.version
  height := height
  index := txIdx
  txType := .regular
  isCoinBase := isCoinBase
  hasExpiry := tx.expiry ≠ 0
  modified := false

/-- The step of `disconnectTransactions` for one regular transaction of the parent. -/
def disconnectRegularTx (parent : MsgBlock) (c : Connecting) (tx : MsgTx) (txIdx : ℕ) :
    Except Err Connecting :=
  let isCoinbase := decide (txIdx < coinbases env parent.header)
  let c := { c with
    view := clearTx env c.view tx (newRegularEntry tx parent.header.height txIdx isCoinbase) }
  if isCoinbase then pure c else tx.txIn.reverse.foldlM (unspendInput tx) c

/-- The part of `disconnectTransactions` for the regular transactions of the parent. -/
def disconnectPrevRegular (db : UtxoSet) (c : Connecting) (block parent : MsgBlock) :
    Except Err Connecting :=
  if block.header.height ≠ 0 ∧ regularTxTreeValid env block parent then do
    let c ← fetchFor env db c .prevRegular block parent
    parent.transactions.zipIdx.reverse.foldlM (fun c (tx, i) =>
      disconnectRegularTx env parent c tx i) c
  else pure c

/-- `disconnectTransactions`, with what it leaves of the journal. -/
def disconnectTransactions (db : UtxoSet) (c : Connecting) (block parent : MsgBlock) :
    Except Err Connecting := do
  rejectIf (c.stxos.length ≠ countSpentOutputs env block parent) Err.assertion
  let c ← fetchFor env db c .currentStake block parent
  let c ← block.sTransactions.zipIdx.reverse.foldlM
    (fun c (tx, i) => disconnectStakeTx env block.header.height c tx i) c
  let c ← disconnectPrevRegular env db c block parent
  pure { c with view := { c.view with bestHash := env.blockHash parent.header } }

end Hcashd.Blockchain
