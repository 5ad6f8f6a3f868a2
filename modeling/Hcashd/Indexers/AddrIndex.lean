import Hcashd.Indexers.AddrLevels
import Hcashd.Indexers.TxIndex

/-!
# The address indexes

`blockchain/indexers/addrindex.go`: for an address, the transactions that pay to it or spend from
it, in their order in the chain. The index goes through the same transactions as the transaction
index, and finds the addresses that they spend from in the view that comes with the block.
`ConnectBlock` appends one entry for each address of each transaction; `DisconnectBlock` goes
through the transactions again, with the view it is given, and removes as many entries of each
address as it counts.

`blockchain/indexers/existsaddrindex.go`: the addresses that have been seen, in blocks and in
unconfirmed transactions. Those of unconfirmed transactions are kept in memory until the next block
is connected, and nothing is ever removed.

Which addresses a script has is not modelled: an address is known by the number of its 21-byte key,
and the keys of a script are whatever the packages `txscript` and `hcashutil` say.
-/

namespace Hcashd.Indexers

open Lib Blockchain

/-- The key of an address. -/
abbrev AddrKey := ℕ

/-- The addresses of scripts. A script of no bytes has none, and commits to none. -/
structure Addresses where
  -- The keys of the addresses that `ExtractPkScriptAddrs` finds in a script that parses, without
  -- those of unsupported types.
  scriptKeys : List UInt8 → List AddrKey
  -- The key of the address of `AddrFromSStxPkScrCommitment`.
  commitmentKey : List UInt8 → Option AddrKey
  -- `MultisigRedeemScriptFromScriptSig` of a signature script that is `IsMultisigSigScript`.
  redeemScript : List UInt8 → Option (List UInt8)
  scriptKeys_nil : scriptKeys [] = []
  commitmentKey_nil : commitmentKey [] = none

variable (env : Env) (addrs : Addresses)

/-- The keys of the addresses of an output, with the one that the output of a ticket purchase
commits to. An output that commits to none that can be read has no addresses. -/
def pkScriptKeys (isSStx : Bool) (version : ℕ) (pkScript : List UInt8) : List AddrKey :=
  match env.script.extractPkScriptAddrs version pkScript with
  | .error _ => []
  | .ok (scriptClass, _) =>
    if isSStx ∧ scriptClass = .nullData then match addrs.commitmentKey pkScript with
      | none => []
      | some key => addrs.scriptKeys pkScript ++ [key]
    else addrs.scriptKeys pkScript

/-! ## Transactions by address -/

/-- `writeIndexData`: the places of the transactions that involve an address. -/
abbrev WriteIndexData := Std.ExtTreeMap AddrKey (List ℕ)

/-- The loop of `indexPkScript` for one address: the last entry tells whether the transaction is
there. -/
def indexKey (txIdx : ℕ) (data : WriteIndexData) (key : AddrKey) : WriteIndexData :=
  let indexedTxns := data[key]?.getD []
  if indexedTxns.getLast? = some txIdx then data else data.insert key (indexedTxns ++ [txIdx])

/-- `indexPkScript`: the addresses of a script get a transaction. -/
def indexPkScript (data : WriteIndexData) (scriptVersion : ℕ) (pkScript : List UInt8) (txIdx : ℕ)
    (isSStx : Bool) : WriteIndexData :=
  (pkScriptKeys env addrs isSStx scriptVersion pkScript).foldl (indexKey txIdx) data

/-- The loop of `indexBlock` over some inputs of a transaction. An input that the view does not have
is ignored. -/
def indexInputs (view : UtxoViewpoint) (data : WriteIndexData) (inputs : List TxIn) (txIdx : ℕ) :
    WriteIndexData :=
  inputs.foldl (fun data txIn => match view.lookupEntry txIn.previousOutPoint.hash with
    | none => data
    | some entry =>
      indexPkScript env addrs data (entry.scriptVersionByIndex txIn.previousOutPoint.index)
        (entry.pkScriptByIndex txIn.previousOutPoint.index) txIdx (entry.txType == .sStx)) data

/-- The loop of `indexBlock` over the outputs of a transaction. -/
def indexOutputs (data : WriteIndexData) (outs : List TxOut) (txIdx : ℕ) (isSStx : Bool) :
    WriteIndexData :=
  outs.foldl (fun data out =>
    indexPkScript env addrs data out.version out.pkScript txIdx isSStx) data

/-- The regular transactions that a block takes up. -/
def parentRegularTxs (block parent : MsgBlock) : List MsgTx :=
  if indexesParent block then parent.transactions else []

/-- `indexBlock`. Of the regular transactions only the first is taken for a coinbase, and the
stakebase of a vote is skipped. -/
def indexBlock (block parent : MsgBlock) (view : UtxoViewpoint) : WriteIndexData :=
  let parentRegularTxs := parentRegularTxs block parent
  let data := parentRegularTxs.zipIdx.foldl (fun data (tx, txIdx) =>
    let data := if txIdx ≠ 0 then indexInputs env addrs view data tx.txIn txIdx else data
    indexOutputs env addrs data tx.txOut txIdx false) ∅
  block.sTransactions.zipIdx.foldl (fun data (tx, txIdx) =>
    let thisTxOffset := txIdx + parentRegularTxs.length
    let data := indexInputs env addrs view data (spendingInputs env tx) thisTxOffset
    indexOutputs env addrs data tx.txOut thisTxOffset (isSStx env tx)) data

/-- The bucket of the address index, with the levels of each address. -/
abbrev AddrBucket := AddrKey → AddrLevels TxIndexEntry

/-- The loop of `AddrIndex.ConnectBlock` over the transactions of one address. -/
def putEntries (levels : AddrLevels TxIndexEntry) (entries : List (Option TxIndexEntry)) :
    Except Err (AddrLevels TxIndexEntry) :=
  entries.foldlM (fun levels entry => match entry with
    | none => .error .panic
    | some entry => dbPutAddrIndexEntry levels entry) levels

/-- The part of `AddrIndex.ConnectBlock` for the parent: the places of its regular transactions and
its number, if its transactions are taken up. -/
def parentTxLocs (db : TxBuckets) (block parent : MsgBlock) : Except Err (List TxLoc × ℕ) :=
  if indexesParent block then do
    let locs ← txLoc env parent
    let parentBlockID ← dbFetchBlockIDByHash db (env.blockHash parent.header)
    pure (locs.1, parentBlockID)
  else pure ([], 0)

/-- `AddrIndex.ConnectBlock`. The numbers of the blocks are those of the transaction index. -/
def AddrBucket.connectBlock (bucket : AddrBucket) (db : TxBuckets) (block parent : MsgBlock)
    (view : UtxoViewpoint) : Except Err AddrBucket := do
  let ofParent ← parentTxLocs env db block parent
  let blockStxLocs ← txLoc env block
  if ofParent.1.length + blockStxLocs.2.length = 0 then pure bucket
  else do
    let blockID ← dbFetchBlockIDByHash db (env.blockHash block.header)
    let allTxLocs :=
      ofParent.1.map (putTxIndexEntry ofParent.2) ++ blockStxLocs.2.map (putTxIndexEntry blockID)
    (indexBlock env addrs block parent view).toList.foldlM (fun bucket (addrKey, txIdxs) => do
      pure (Function.update bucket addrKey
        (← putEntries (bucket addrKey) (txIdxs.map (allTxLocs[·]?))))) bucket

/-- `DisconnectBlock` of the address index. -/
def AddrBucket.disconnectBlock (bucket : AddrBucket) (block parent : MsgBlock)
    (view : UtxoViewpoint) :
    Except Err AddrBucket :=
  (indexBlock env addrs block parent view).toList.foldlM (fun bucket (addrKey, txIdxs) => do
    pure (Function.update bucket addrKey
      (← dbRemoveAddrIndexEntries (bucket addrKey) txIdxs.length))) bucket

/-! ## Addresses that exist -/

/-- The addresses of one transaction for `ExistsAddrIndex`: those of its outputs, and those of the
multisig scripts that its inputs redeem. -/
def existsKeys (tx : MsgTx) : List AddrKey :=
  tx.txIn.flatMap (fun txIn => match addrs.redeemScript txIn.signatureScript with
    | none => []
    | some script => match env.script.extractPkScriptAddrs DefaultScriptVersion script with
      | .error _ => []
      | .ok (scriptClass, _) => if scriptClass = .multiSig then addrs.scriptKeys script else []) ++
    tx.txOut.flatMap fun out => pkScriptKeys env addrs (isSStx env tx) out.version out.pkScript

/-- `ExistsAddrIndex`: its bucket, and the addresses of unconfirmed transactions. -/
structure ExistsAddrIndex where
  bucket : Finset AddrKey
  mpExistsAddr : Finset AddrKey
  deriving DecidableEq

/-- `ExistsAddress`: the address is stored or seen in the pool. -/
def ExistsAddrIndex.existsAddress (idx : ExistsAddrIndex) (key : AddrKey) : Bool :=
  decide (key ∈ idx.bucket) || decide (key ∈ idx.mpExistsAddr)

/-- `ExistsAddrIndex.ConnectBlock`: the addresses of the block and those of the unconfirmed
transactions are written, and the latter are no longer kept in memory. -/
def ExistsAddrIndex.connectBlock (idx : ExistsAddrIndex) (block parent : MsgBlock) :
    ExistsAddrIndex :=
  let allTxns := parentRegularTxs block parent ++ block.sTransactions
  let usedAddrs := (allTxns.flatMap (existsKeys env addrs)).toFinset ∪ idx.mpExistsAddr
  ⟨idx.bucket ∪ usedAddrs, ∅⟩

/-- `AddUnconfirmedTx`: the addresses of a pool transaction. -/
def ExistsAddrIndex.addUnconfirmedTx (idx : ExistsAddrIndex) (tx : MsgTx) : ExistsAddrIndex :=
  { idx with mpExistsAddr := idx.mpExistsAddr ∪ (existsKeys env addrs tx).toFinset }

end Hcashd.Indexers
