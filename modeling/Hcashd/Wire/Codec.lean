import Hcashd.Lib.Reader
import Hcashd.Wire

/-!
# The wire encodings

`wire/msgtx.go`, `wire/msgblock.go` and `wire/blockheader.go`: how transactions, headers and blocks
are written and read, and where the transactions of a block stand in its bytes (`deserializeTxLoc`).
A transaction is written in one of five forms, of which the first holds everything. What is proved
here is that a block in the ranges of its fields is read back, and that the place given for each of
its transactions holds the full encoding of that transaction (`slice_of_deserializeTxLoc`).
-/

namespace Hcashd

open Lib List Reads

/-! ## Limits -/

def MaxMessagePayload : ℕ := 1024 * 1024 * 32
def MaxBlockPayload : ℕ := 2048000
def minTxInPayload : ℕ := 11 + 32
def maxTxInPerMessage : ℕ := MaxMessagePayload / minTxInPayload + 1
def minTxOutPayload : ℕ := 9
def maxTxOutPerMessage : ℕ := MaxMessagePayload / minTxOutPayload + 1
def minTxPayload : ℕ := 4 + 1 + 1 + 1 + 4 + 4

/-- `MaxTxPerTxTree`. The payload of a block is the same for all protocol versions. -/
def MaxTxPerTxTree : ℕ := MaxBlockPayload / minTxPayload / 2 + 1

/-! ## Hashes and scripts -/

/-- The next thirty-two bytes as a hash. -/
def readHash : Reader Hash := do pure (Hash.ofBytes (← Reader.take 32))

/-- `WriteVarBytes`: the length, and the bytes. -/
def writeVarBytes (bs : List UInt8) : List UInt8 := varInt bs.length ++ bs

/-- `readScript`: bytes that are not more than a message may have. -/
def readScript : Reader (List UInt8) := do
  let count ← Reader.varInt
  Reader.require (count ≤ MaxMessagePayload)
  Reader.take count

theorem reads_hash (h : Hash) : Reads readHash h.bytes h := by
  have htake : Reads (Reader.take 32) h.bytes h.bytes := by
    have hread := take h.bytes
    rwa [h.length_bytes] at hread
  have hread := htake.map Hash.ofBytes
  rwa [h.ofBytes_bytes] at hread

theorem reads_script {script : List UInt8} (h : script.length ≤ MaxMessagePayload) :
    Reads readScript (writeVarBytes script) script := by
  have hlt : script.length < 2^64 := by
    unfold MaxMessagePayload at h
    omega
  exact (varInt hlt).bind (require h (take script))

/-! ## Transactions -/

/-- `TxSerializeType`: which parts of a transaction are written. -/
inductive TxSerializeType
  | full | noWitness | onlyWitness | witnessSigning | witnessValueSigning
  deriving DecidableEq, Repr

/-- The number of a serialization type. -/
def TxSerializeType.toNat : TxSerializeType → ℕ
  | full => 0
  | noWitness => 1
  | onlyWitness => 2
  | witnessSigning => 3
  | witnessValueSigning => 4

/-- `writeOutPoint`: the bytes of an outpoint. -/
def writeOutPoint (op : OutPoint) : List UInt8 :=
  op.hash.bytes ++ (leBytes 4 op.index ++ leBytes 1 (op.tree % 256 ^ 1).toNat)

/-- `writeTxInPrefix`: what an input spends. -/
def writeTxInPrefix (ti : TxIn) : List UInt8 :=
  writeOutPoint ti.previousOutPoint ++ leBytes 4 ti.sequence

/-- `writeTxInWitness`: what an input says and signs. -/
def writeTxInWitness (ti : TxIn) : List UInt8 :=
  leBytes 8 (ti.valueIn % 256 ^ 8).toNat ++
    (leBytes 4 ti.blockHeight ++ (leBytes 4 ti.blockIndex ++ writeVarBytes ti.signatureScript))

/-- `writeTxInWitnessSigning`: the script only. -/
def writeTxInWitnessSigning (ti : TxIn) : List UInt8 := writeVarBytes ti.signatureScript

/-- `writeTxInWitnessValueSigning`: the amount and the script. -/
def writeTxInWitnessValueSigning (ti : TxIn) : List UInt8 :=
  leBytes 8 (ti.valueIn % 256 ^ 8).toNat ++ writeVarBytes ti.signatureScript

/-- `writeTxOut`: the bytes of an output. -/
def writeTxOut (out : TxOut) : List UInt8 :=
  leBytes 8 (out.value % 256 ^ 8).toNat ++ (leBytes 2 out.version ++ writeVarBytes out.pkScript)

/-- `ReadOutPoint`, against `writeOutPoint`. -/
def readOutPoint : Reader OutPoint := do
  let hash ← readHash
  let index ← Reader.uint 4
  pure ⟨hash, index, ← Reader.int 1⟩

/-- `readTxInPrefix`. The fields of the witness are left at zero. -/
def readTxInPrefix : Reader TxIn := do
  let previousOutPoint ← readOutPoint
  pure ⟨previousOutPoint, ← Reader.uint 4, 0, 0, 0, []⟩

/-- `readTxInWitness`, against `writeTxInWitness`. -/
def readTxInWitness : Reader TxIn := do
  let valueIn ← Reader.int 8
  let blockHeight ← Reader.uint 4
  let blockIndex ← Reader.uint 4
  pure ⟨⟨0, 0, 0⟩, 0, valueIn, blockHeight, blockIndex, ← readScript⟩

/-- `readTxInWitnessSigning`: the script only. -/
def readTxInWitnessSigning : Reader TxIn := do
  pure ⟨⟨0, 0, 0⟩, 0, 0, 0, 0, ← readScript⟩

/-- `readTxInWitnessValueSigning`: the amount and the script. -/
def readTxInWitnessValueSigning : Reader TxIn := do
  let valueIn ← Reader.int 8
  pure ⟨⟨0, 0, 0⟩, 0, valueIn, 0, 0, ← readScript⟩

/-- `readTxOut`, against `writeTxOut`. -/
def readTxOut : Reader TxOut := do
  let value ← Reader.int 8
  let version ← Reader.uint 2
  pure ⟨value, version, ← readScript⟩

namespace MsgTx

/-- `encodePrefix`: inputs and outputs without witnesses. -/
def encodePrefix (msg : MsgTx) : List UInt8 :=
  varInt msg.txIn.length ++ (msg.txIn.flatMap writeTxInPrefix ++
    (varInt msg.txOut.length ++
      (msg.txOut.flatMap writeTxOut ++ (leBytes 4 msg.lockTime ++ leBytes 4 msg.expiry))))

/-- The functions that write the inputs only, which differ in what they write of each:
`encodeWitness`, `encodeWitnessSigning` and `encodeWitnessValueSigning`. -/
def encodeInputs (write : TxIn → List UInt8) (msg : MsgTx) : List UInt8 :=
  varInt msg.txIn.length ++ msg.txIn.flatMap write

/-- `encodeWitness`: the witnesses of all inputs. -/
def encodeWitness : MsgTx → List UInt8 := encodeInputs writeTxInWitness

/-- `encodeWitnessSigning`: the scripts of all inputs. -/
def encodeWitnessSigning : MsgTx → List UInt8 := encodeInputs writeTxInWitnessSigning

/-- `encodeWitnessValueSigning`: the amounts and scripts of all inputs. -/
def encodeWitnessValueSigning : MsgTx → List UInt8 := encodeInputs writeTxInWitnessValueSigning

/-- What follows the version in each form. -/
def encodeBody (serType : TxSerializeType) (msg : MsgTx) : List UInt8 :=
  match serType with
  | .noWitness => msg.encodePrefix
  | .onlyWitness => msg.encodeWitness
  | .witnessSigning => msg.encodeWitnessSigning
  | .witnessValueSigning => msg.encodeWitnessValueSigning
  | .full => msg.encodePrefix ++ msg.encodeWitness

/-- `(*MsgTx).BtcEncode` of a transaction with a serialization type. The version has the type in its
upper half. -/
def btcEncode (serType : TxSerializeType) (msg : MsgTx) : List UInt8 :=
  leBytes 4 (msg.version ||| serType.toNat <<< 16) ++ msg.encodeBody serType

/-- `decodePrefix`, against `encodePrefix`. -/
def decodePrefix (version : ℕ) : Reader MsgTx := do
  let count ← Reader.varInt
  Reader.require (count ≤ maxTxInPerMessage)
  let txIn ← Reader.count readTxInPrefix count
  let count ← Reader.varInt
  Reader.require (count ≤ maxTxOutPerMessage)
  let txOut ← Reader.count readTxOut count
  let lockTime ← Reader.uint 4
  pure ⟨version, txIn, txOut, lockTime, ← Reader.uint 4⟩

/-- The functions that read the inputs only: `decodeWitness` of a transaction that is not full,
`decodeWitnessSigning` and `decodeWitnessValueSigning`. -/
def decodeInputs (read : Reader TxIn) (version : ℕ) : Reader MsgTx := do
  let count ← Reader.varInt
  Reader.require (count ≤ maxTxInPerMessage)
  pure ⟨version, ← Reader.count read count, [], 0, 0⟩

/-- An input of the prefix with what its witness says. -/
def withWitness (ti witness : TxIn) : TxIn :=
  { ti with
    valueIn := witness.valueIn
    blockHeight := witness.blockHeight
    blockIndex := witness.blockIndex
    signatureScript := witness.signatureScript }

/-- `decodeWitness` of a full transaction, whose prefix has been read. -/
def decodeWitness (msg : MsgTx) : Reader MsgTx := do
  let count ← Reader.varInt
  Reader.require (count = msg.txIn.length)
  Reader.require (count ≤ maxTxInPerMessage)
  let witnesses ← Reader.count readTxInWitness count
  pure { msg with txIn := zipWith withWitness msg.txIn witnesses }

/-- `BtcDecode`: a transaction in any of the forms. -/
def btcDecode : Reader (TxSerializeType × MsgTx) := do
  let serialized ← Reader.uint 4
  let version := serialized &&& 0xffff
  let serType := serialized >>> 16
  if serType = 0 then do
    let msg ← decodePrefix version
    pure (.full, ← decodeWitness msg)
  else if serType = 1 then do pure (.noWitness, ← decodePrefix version)
  else if serType = 2 then do pure (.onlyWitness, ← decodeInputs readTxInWitness version)
  else if serType = 3 then do pure (.witnessSigning, ← decodeInputs readTxInWitnessSigning version)
  else if serType = 4 then do
    pure (.witnessValueSigning, ← decodeInputs readTxInWitnessValueSigning version)
  else failure

/-- `(*MsgTx).Serialize` of a transaction as blocks hold it. -/
def serialize (msg : MsgTx) : List UInt8 := msg.btcEncode .full

end MsgTx

/-! ## What can be written -/

/-- The fields of an input fit their types, and its script a message. -/
@[mk_iff] structure TxIn.Fits (ti : TxIn) : Prop where
  index : ti.previousOutPoint.index < 2^32
  tree_ge : -128 ≤ ti.previousOutPoint.tree
  tree_lt : ti.previousOutPoint.tree < 128
  sequence : ti.sequence < 2^32
  valueIn_ge : -2^63 ≤ ti.valueIn
  valueIn_lt : ti.valueIn < 2^63
  blockHeight : ti.blockHeight < 2^32
  blockIndex : ti.blockIndex < 2^32
  signatureScript : ti.signatureScript.length ≤ MaxMessagePayload

/-- The fields of an output fit their types, and its script a message. -/
@[mk_iff] structure TxOut.Fits (out : TxOut) : Prop where
  value_ge : -2^63 ≤ out.value
  value_lt : out.value < 2^63
  version : out.version < 2^16
  pkScript : out.pkScript.length ≤ MaxMessagePayload

/-- A transaction that fits a message. -/
@[mk_iff] structure MsgTx.Fits (msg : MsgTx) : Prop where
  version : msg.version < 2^16
  txIns : msg.txIn.length ≤ maxTxInPerMessage
  txIn : ∀ ti ∈ msg.txIn, ti.Fits
  txOuts : msg.txOut.length ≤ maxTxOutPerMessage
  txOut : ∀ out ∈ msg.txOut, out.Fits
  lockTime : msg.lockTime < 2^32
  expiry : msg.expiry < 2^32

instance (ti : TxIn) : Decidable ti.Fits := decidable_of_iff' _ ti.fits_iff
instance (out : TxOut) : Decidable out.Fits := decidable_of_iff' _ out.fits_iff
instance (msg : MsgTx) : Decidable msg.Fits := decidable_of_iff' _ msg.fits_iff

/-! ## Reading back a transaction -/

/-- What the prefix says of an input. -/
def TxIn.withoutWitness (ti : TxIn) : TxIn :=
  { ti with valueIn := 0, blockHeight := 0, blockIndex := 0, signatureScript := [] }

/-- What the witness says of an input. -/
def TxIn.onlyWitness (ti : TxIn) : TxIn := { ti with previousOutPoint := ⟨0, 0, 0⟩, sequence := 0 }

section

variable {ti : TxIn} {out : TxOut} {msg : MsgTx}

/-- The prefix of an input is read back. -/
theorem reads_txInPrefix (h : ti.Fits) :
    Reads readTxInPrefix (writeTxInPrefix ti) ti.withoutWitness := by
  have hop : Reads readOutPoint (writeOutPoint ti.previousOutPoint) ti.previousOutPoint := by
    apply (reads_hash _).bind
    apply (uint h.index).bind
    have htree := h.tree_ge
    have htree' := h.tree_lt
    exact (int (by norm_num; omega) (by norm_num; omega)).map _
  exact hop.bind ((uint h.sequence).map _)

/-- The witness of an input is read back. -/
theorem reads_txInWitness (h : ti.Fits) :
    Reads readTxInWitness (writeTxInWitness ti) ti.onlyWitness := by
  have hvalue := h.valueIn_ge
  have hvalue' := h.valueIn_lt
  apply (int (by norm_num; omega) (by norm_num; omega)).bind
  apply (uint h.blockHeight).bind
  apply (uint h.blockIndex).bind
  exact (reads_script h.signatureScript).map _

/-- An output is read back. -/
theorem reads_txOut (h : out.Fits) : Reads readTxOut (writeTxOut out) out := by
  have hvalue := h.value_ge
  have hvalue' := h.value_lt
  apply (int (by norm_num; omega) (by norm_num; omega)).bind
  apply (uint h.version).bind
  exact (reads_script h.pkScript).map _

/-- The prefix of a transaction is read back. -/
theorem reads_prefixPart (h : msg.Fits) : Reads (MsgTx.decodePrefix msg.version) msg.encodePrefix
    { msg with txIn := msg.txIn.map TxIn.withoutWitness } := by
  have hins : msg.txIn.length < 2^64 := h.txIns.trans_lt (by decide)
  have houts : msg.txOut.length < 2^64 := h.txOuts.trans_lt (by decide)
  have hreadIns := countMap fun ti hti => reads_txInPrefix (h.txIn ti hti)
  apply (varInt hins).bind
  apply require h.txIns
  apply hreadIns.bind
  apply (varInt houts).bind
  apply require h.txOuts
  apply (count fun out hout => reads_txOut (h.txOut out hout)).bind
  apply (uint h.lockTime).bind
  exact (uint h.expiry).map _

theorem zipWith_withWitness (ins : List TxIn) :
    zipWith MsgTx.withWitness (ins.map TxIn.withoutWitness) (ins.map TxIn.onlyWitness) = ins := by
  rw [zipWith_map, zipWith_self]
  exact map_id ins

/-- A transaction is read back from its full encoding. -/
theorem reads_tx (h : msg.Fits) : Reads MsgTx.btcDecode msg.serialize (.full, msg) := by
  have hins : msg.txIn.length < 2^64 := h.txIns.trans_lt (by decide)
  have hversion : msg.version ||| TxSerializeType.full.toNat <<< 16 = msg.version := by
    simp [TxSerializeType.toNat]
  have hlow : msg.version &&& 0xffff = msg.version := by
    rw [show 0xffff = 2^16 - 1 from rfl, Nat.and_two_pow_sub_one_eq_mod, Nat.mod_eq_of_lt h.version]
  have hhigh : msg.version >>> 16 = 0 := by
    rw [Nat.shiftRight_eq_div_pow, Nat.div_eq_of_lt h.version]
  unfold MsgTx.serialize MsgTx.btcEncode
  rw [hversion]
  apply (uint (h.version.trans (by decide))).bind
  rw [hhigh, if_pos rfl, hlow]
  apply (reads_prefixPart h).bind
  have hwitness : Reads (MsgTx.decodeWitness { msg with txIn := msg.txIn.map TxIn.withoutWitness })
      msg.encodeWitness msg := by
    apply (varInt hins).bind
    apply require (by rw [length_map])
    apply require h.txIns
    have hread := (countMap fun ti hti => reads_txInWitness (h.txIn ti hti)).map
      fun witnesses => MsgTx.mk msg.version
        (zipWith MsgTx.withWitness (msg.txIn.map TxIn.withoutWitness) witnesses) msg.txOut
        msg.lockTime msg.expiry
    rwa [zipWith_withWitness] at hread
  exact hwitness.map _

end

/-! ## Headers and blocks -/

/-- `readBlockHeader`: a header, field by field. -/
def readBlockHeader : Reader BlockHeader := do
  let version ← Reader.int 4
  let prevBlock ← readHash
  let prevKeyBlock ← readHash
  let merkleRoot ← readHash
  let stakeRoot ← readHash
  let voteBits ← Reader.uint 2
  let finalState ← Reader.take 6
  let voters ← Reader.uint 2
  let freshStake ← Reader.uint 1
  let revocations ← Reader.uint 1
  let poolSize ← Reader.uint 4
  let bits ← Reader.uint 4
  let sBits ← Reader.int 8
  let height ← Reader.uint 4
  let keyHeight ← Reader.uint 4
  let size ← Reader.uint 4
  let timestamp ← Reader.uint 4
  let extraData ← Reader.take 32
  let nonce ← Reader.uint 4
  let stakeVersion ← Reader.uint 4
  pure { version, prevBlock, prevKeyBlock, merkleRoot, stakeRoot, voteBits, finalState, voters,
         freshStake, revocations, poolSize, bits, sBits, height, keyHeight, size,
         timestamp := timestamp, nonce, extraData, stakeVersion }

/-- The fields of a header fit their types. -/
@[mk_iff] structure BlockHeader.Fits (bh : BlockHeader) : Prop where
  version_ge : -2^31 ≤ bh.version
  version_lt : bh.version < 2^31
  voteBits : bh.voteBits < 2^16
  finalState : bh.finalState.length = 6
  voters : bh.voters < 2^16
  freshStake : bh.freshStake < 2^8
  revocations : bh.revocations < 2^8
  poolSize : bh.poolSize < 2^32
  bits : bh.bits < 2^32
  sBits_ge : -2^63 ≤ bh.sBits
  sBits_lt : bh.sBits < 2^63
  height : bh.height < 2^32
  keyHeight : bh.keyHeight < 2^32
  size : bh.size < 2^32
  timestamp_ge : 0 ≤ bh.timestamp
  timestamp_lt : bh.timestamp < 2^32
  extraData : bh.extraData.length = 32
  nonce : bh.nonce < 2^32
  stakeVersion : bh.stakeVersion < 2^32

instance (bh : BlockHeader) : Decidable bh.Fits := decidable_of_iff' _ bh.fits_iff

theorem reads_take {k : ℕ} {bs : List UInt8} (h : bs.length = k) : Reads (Reader.take k) bs bs := by
  have hread := take bs
  rwa [h] at hread

/-- A header is read back. -/
theorem reads_blockHeader {bh : BlockHeader} (h : bh.Fits) : Reads readBlockHeader bh.bytes bh := by
  have hversion := h.version_ge
  have hversion' := h.version_lt
  have hsBits := h.sBits_ge
  have hsBits' := h.sBits_lt
  have htime := h.timestamp_lt
  have hnonneg := h.timestamp_ge
  have hmod : (bh.timestamp % 2^32).toNat = bh.timestamp.toNat := by
    rw [Int.emod_eq_of_lt hnonneg htime]
  unfold BlockHeader.bytes
  rw [hmod]
  simp only [append_assoc]
  apply (int (by norm_num; omega) (by norm_num; omega)).bind
  apply (reads_hash _).bind
  apply (reads_hash _).bind
  apply (reads_hash _).bind
  apply (reads_hash _).bind
  apply (uint h.voteBits).bind
  apply (reads_take h.finalState).bind
  apply (uint h.voters).bind
  apply (uint h.freshStake).bind
  apply (uint h.revocations).bind
  apply (uint h.poolSize).bind
  apply (uint h.bits).bind
  apply (int (by norm_num; omega) (by norm_num; omega)).bind
  apply (uint h.height).bind
  apply (uint h.keyHeight).bind
  apply (uint h.size).bind
  apply (uint (show bh.timestamp.toNat < 256 ^ 4 by omega)).bind
  apply (reads_take h.extraData).bind
  apply (uint h.nonce).bind
  rw [Int.toNat_of_nonneg hnonneg]
  exact (uint h.stakeVersion).map _

/-- A block whose header fits its types, and whose transactions fit a message, with no more of them
than a block may have. -/
@[mk_iff] structure MsgBlock.Fits (block : MsgBlock) : Prop where
  header : block.header.Fits
  transactions : ∀ tx ∈ block.transactions, tx.Fits
  sTransactions : ∀ tx ∈ block.sTransactions, tx.Fits
  length_transactions : block.transactions.length ≤ MaxTxPerTxTree
  length_sTransactions : block.sTransactions.length ≤ MaxTxPerTxTree

instance (block : MsgBlock) : Decidable block.Fits := decidable_of_iff' _ block.fits_iff

/-- `(*MsgBlock).Serialize`, of a block whose transactions are full. -/
def MsgBlock.serialize (block : MsgBlock) : List UInt8 :=
  block.header.bytes ++ (varInt block.transactions.length ++
    (block.transactions.flatMap MsgTx.serialize ++ (varInt block.sTransactions.length ++
      block.sTransactions.flatMap MsgTx.serialize)))

/-- `TxLoc`: where a transaction stands in a block. -/
structure TxLoc where
  txStart : ℕ
  txLen : ℕ
  deriving DecidableEq, Repr

/-- One turn of the loops of `DeserializeTxLoc`: a transaction, of any form, with its place in the
`fullLen` bytes that there were. -/
def readTxLoc (fullLen : ℕ) : Reader TxLoc := do
  let before ← Reader.left
  let _ ← MsgTx.btcDecode
  let after ← Reader.left
  pure ⟨fullLen - before, (fullLen - after) - (fullLen - before)⟩

/-- `(*MsgBlock).DeserializeTxLoc`, for the places. -/
def deserializeTxLoc (bytes : List UInt8) : Option (List TxLoc × List TxLoc) :=
  (·.1) <$> (do
    let _ ← readBlockHeader
    let txCount ← Reader.varInt
    Reader.require (txCount ≤ MaxTxPerTxTree)
    let txLocs ← Reader.count (readTxLoc bytes.length) txCount
    let stakeTxCount ← Reader.varInt
    Reader.require (stakeTxCount ≤ MaxTxPerTxTree)
    let sTxLocs ← Reader.count (readTxLoc bytes.length) stakeTxCount
    pure (txLocs, sTxLocs) : Reader (List TxLoc × List TxLoc)) bytes

/-- The places of encodings one after the other. -/
def txLocs (start : ℕ) : List MsgTx → List TxLoc
  | [] => []
  | tx :: txs => ⟨start, tx.serialize.length⟩ :: txLocs (start + tx.serialize.length) txs

/-- The bytes at a place. -/
def bytesAt (bytes : List UInt8) (start len : ℕ) : List UInt8 := (bytes.drop start).take len

/-- The locations are where the transactions are. -/
theorem slice_txLocs (front back : List UInt8) (txs : List MsgTx) :
    (txLocs front.length txs).map (fun loc =>
      bytesAt (front ++ (txs.flatMap MsgTx.serialize ++ back)) loc.txStart loc.txLen) =
    txs.map MsgTx.serialize := by
  induction txs generalizing front with
  | nil => rfl
  | cons tx txs ih =>
    have hrest := ih (front ++ tx.serialize)
    rw [length_append, append_assoc] at hrest
    rw [txLocs, map_cons, map_cons, flatMap_cons, append_assoc, hrest]
    rw [bytesAt, drop_left, take_left]

theorem txLocs_le {start : ℕ} {txs : List MsgTx} {loc : TxLoc} (h : loc ∈ txLocs start txs) :
    loc.txStart + loc.txLen ≤ start + (txs.flatMap MsgTx.serialize).length := by
  induction txs generalizing start with
  | nil => exact absurd h not_mem_nil
  | cons tx txs ih =>
    rw [flatMap_cons, length_append]
    rcases mem_cons.1 h with rfl | h
    · dsimp only
      omega
    · have hle := ih h
      omega

/-- The location of one transaction. -/
theorem readTxLoc_append {tx : MsgTx} (h : tx.Fits) (start : ℕ) (rest : List UInt8) :
    readTxLoc (start + (tx.serialize ++ rest).length) (tx.serialize ++ rest) =
      some (⟨start, tx.serialize.length⟩, rest) := by
  have hbefore : Reader.left (tx.serialize ++ rest) =
      some ((tx.serialize ++ rest).length, tx.serialize ++ rest) := rfl
  have hafter : Reader.left rest = some (rest.length, rest) := rfl
  unfold readTxLoc
  rw [Reader.bind_eq hbefore, Reader.bind_eq (reads_tx h rest), Reader.bind_eq hafter]
  have hstart : start + (tx.serialize ++ rest).length - (tx.serialize ++ rest).length = start := by
    omega
  have hlen : start + (tx.serialize ++ rest).length - rest.length - start =
      tx.serialize.length := by
    rw [length_append]
    omega
  rw [hstart, hlen]
  rfl

/-- The locations of all transactions. -/
theorem count_readTxLoc {txs : List MsgTx} (h : ∀ tx ∈ txs, tx.Fits) (start : ℕ)
    (back : List UInt8) :
    Reader.count (readTxLoc (start + (txs.flatMap MsgTx.serialize ++ back).length)) txs.length
      (txs.flatMap MsgTx.serialize ++ back) = some (txLocs start txs, back) := by
  induction txs generalizing start with
  | nil => rfl
  | cons tx txs ih =>
    obtain ⟨htx, htxs⟩ := forall_mem_cons.1 h
    rw [flatMap_cons, append_assoc, length_cons, Reader.count,
      Reader.bind_eq (readTxLoc_append htx start _), length_append, ← Nat.add_assoc,
      Reader.bind_eq (ih htxs (start + tx.serialize.length))]
    rfl

/-- The places of the transactions of both trees of a block, between the parts of the encoding that
hold no transaction. -/
theorem deserializeTxLoc_serialize {block : MsgBlock} (h : block.Fits) :
    deserializeTxLoc block.serialize =
      some (txLocs (block.header.bytes ++ varInt block.transactions.length).length
        block.transactions, txLocs (block.header.bytes ++ varInt block.transactions.length ++
          block.transactions.flatMap MsgTx.serialize ++ varInt block.sTransactions.length).length
          block.sTransactions) := by
  have htxs : block.transactions.length < 2^64 := h.length_transactions.trans_lt (by decide)
  have hstxs : block.sTransactions.length < 2^64 := h.length_sTransactions.trans_lt (by decide)
  have hrequire : ∀ {n : ℕ} (bs : List UInt8), n ≤ MaxTxPerTxTree →
      Reader.require (n ≤ MaxTxPerTxTree) bs = some ((), bs) := by
    intro n bs hn
    rw [Reader.require, if_pos hn]
  -- both loops are run with the length of the whole encoding
  have hfull :
      block.serialize.length = (block.header.bytes ++ varInt block.transactions.length).length +
        (block.transactions.flatMap MsgTx.serialize ++ (varInt block.sTransactions.length ++
          block.sTransactions.flatMap MsgTx.serialize)).length := by
    rw [MsgBlock.serialize, ← append_assoc, length_append]
  have hfull' : block.serialize.length = (block.header.bytes ++ varInt block.transactions.length ++
          block.transactions.flatMap MsgTx.serialize ++ varInt block.sTransactions.length).length +
        (block.sTransactions.flatMap MsgTx.serialize ++ []).length := by
    rw [MsgBlock.serialize]
    simp only [length_append, length_nil]
    omega
  have hfirst :=
    count_readTxLoc h.transactions (block.header.bytes ++ varInt block.transactions.length).length
    (varInt block.sTransactions.length ++ block.sTransactions.flatMap MsgTx.serialize)
  have hsecond :=
    count_readTxLoc h.sTransactions (block.header.bytes ++ varInt block.transactions.length ++
      block.transactions.flatMap MsgTx.serialize ++ varInt block.sTransactions.length).length []
  rw [← hfull] at hfirst
  rw [← hfull', append_nil] at hsecond
  unfold deserializeTxLoc
  nth_rewrite 3 [MsgBlock.serialize]
  rw [Reader.bind_eq (reads_blockHeader h.header _), Reader.bind_eq (varInt htxs _),
    Reader.bind_eq (hrequire _ h.length_transactions), Reader.bind_eq hfirst,
    Reader.bind_eq (varInt hstxs _), Reader.bind_eq (hrequire _ h.length_sTransactions),
    Reader.bind_eq hsecond]
  rfl

/-- The bytes at the places of a block's transactions are their encodings, and no place goes beyond
the end of the block. -/
theorem slice_of_deserializeTxLoc {block : MsgBlock} (h : block.Fits) :
    ∃ locs sLocs, deserializeTxLoc block.serialize = some (locs, sLocs) ∧
      (locs.map fun loc => bytesAt block.serialize loc.txStart loc.txLen) =
        block.transactions.map MsgTx.serialize ∧
      (sLocs.map fun loc => bytesAt block.serialize loc.txStart loc.txLen) =
        block.sTransactions.map MsgTx.serialize ∧
      (∀ loc ∈ locs, loc.txStart + loc.txLen ≤ block.serialize.length) ∧
      ∀ loc ∈ sLocs, loc.txStart + loc.txLen ≤ block.serialize.length := by
  have hlength : block.serialize.length = block.header.bytes.length +
      ((varInt block.transactions.length).length +
        ((block.transactions.flatMap MsgTx.serialize).length +
        ((varInt block.sTransactions.length).length +
          (block.sTransactions.flatMap MsgTx.serialize).length))) := by
    simp only [MsgBlock.serialize, length_append]
  refine ⟨_, _, deserializeTxLoc_serialize h, ?_, ?_, fun loc hloc => ?_, fun loc hloc => ?_⟩
  · have hslice := slice_txLocs (block.header.bytes ++ varInt block.transactions.length)
      (varInt block.sTransactions.length ++ block.sTransactions.flatMap MsgTx.serialize)
      block.transactions
    rwa [append_assoc] at hslice
  · have hslice := slice_txLocs (block.header.bytes ++ varInt block.transactions.length ++
      block.transactions.flatMap MsgTx.serialize ++ varInt block.sTransactions.length) []
      block.sTransactions
    simp only [append_assoc, append_nil] at hslice ⊢
    exact hslice
  · have hle := txLocs_le hloc
    rw [length_append] at hle
    omega
  · have hle := txLocs_le hloc
    simp only [length_append] at hle
    omega

end Hcashd
