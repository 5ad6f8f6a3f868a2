import Hcashd.Chaincfg
import Hcashd.Stake.StakeTx
import Hcashd.Wire.Codec

/-!
# What the consensus code is given

The network parameters and everything that the modelled part of `blockchain` calls but that is not
modelled: hash functions, sizes of serialized messages, the script package, the difficulty
algorithms and the checkpoints. The results hold for every choice of these.
-/

namespace Hcashd.Blockchain

open Lib

/-- The network, and the parts of the node that are not modelled. -/
structure Env where
  params : Params
  script : Txscript
  -- Hashes: of bytes, of a transaction without and with its signatures, and of a block header.
  hashH : List UInt8 → Hash
  txHash : MsgTx → Hash
  txHashFull : MsgTx → Hash
  blockHash : BlockHeader → Hash
  -- `SerializeSize` of a transaction, which writes every output in more than one byte, and of a
  -- block.
  txSize : MsgTx → ℕ
  length_txOut_le_txSize : ∀ tx, tx.txOut.length ≤ txSize tx
  blockSize : MsgBlock → ℕ
  -- `(*hcashutil.Block).TxLoc`, which reads the bytes of the block.
  txLoc : MsgBlock → Option (List TxLoc × List TxLoc)
  txLoc_eq : ∀ block, txLoc block = deserializeTxLoc block.serialize
  -- `hcashutil.MaxAmount`, which bounds the atoms of an output and of a whole transaction.
  maxAmount : ℤ
  maxAmount_nonneg : 0 ≤ maxAmount
  maxAmount_lt : maxAmount < 2^62
  -- `chaincfg.CheckForDuplicateHashes`.
  checkForDuplicateHashes : Bool
  -- What a chain, newest header first, asks of its next block.
  requiredDifficulty : List BlockHeader → ℤ → Except Err ℕ
  requiredStakeDifficulty : List BlockHeader → Except Err ℤ
  maxBlockSize : List BlockHeader → Except Err ℤ
  -- `calcEasiestDifficulty`: the bits that some seconds after a checkpoint with its bits allow.
  easiestDifficulty : ℕ → ℤ → ℕ
  -- `verifyCheckpoint`; the height of the last checkpoint on a chain; whether scripts are run at a
  -- height.
  verifyCheckpoint : ℕ → Hash → Bool
  previousCheckpoint : List BlockHeader → Except Err (Option ℕ)
  runScripts : ℕ → Bool
  -- Number of draws that the ticket lottery may take.
  lotteryFuel : ℕ

variable (env : Env)

/-- The test by which the whole package tells a key block from a micro block: its hash meets the
target of its own bits. -/
def isKeyBlock (header : BlockHeader) : Bool :=
  decide (hashToBig (env.blockHash header) ≤ compactToBig header.bits)

/-- `hcashutil.IsFlagSet16(voteBits, hcashutil.BlockValid)`: bit 0 approves the regular transactions
of the parent. -/
def blockValid (voteBits : ℕ) : Bool := voteBits.testBit 0

/-- The kind of a transaction. -/
abbrev txType (tx : MsgTx) : Stake.TxType := Stake.determineTxType env.script tx

/-- Whether a transaction buys a ticket. -/
abbrev isSStx (tx : MsgTx) : Bool := Stake.isSStx env.script tx

/-- Whether a transaction is a vote. -/
abbrev isSSGen (tx : MsgTx) : Bool := Stake.isSSGen env.script tx

/-- Whether a transaction revokes a ticket. -/
abbrev isSSRtx (tx : MsgTx) : Bool := Stake.isSSRtx env.script tx

/-- `IsCoinBaseTx`. The tree of the null outpoint is not looked at. -/
def isCoinBaseTx (tx : MsgTx) : Bool :=
  match tx.txIn with
  | [txIn] => txIn.previousOutPoint.index == MaxPrevOutIndex && txIn.previousOutPoint.hash == 0
  | _ => false

/-- The inputs of a transaction that are not a stakebase: the loops over inputs skip the first one
of a vote. -/
def spendingInputs (tx : MsgTx) : List TxIn := if isSSGen env tx then tx.txIn.tail else tx.txIn

/-- `blockNode`, without the links to other nodes. -/
structure BlockNode where
  hash : Hash
  header : BlockHeader
  height : ℕ
  keyHeight : ℕ
  isKeyBlock : Bool
  -- The fees that the block's regular transactions leave by what their inputs say they are worth.
  totalFees : ℤ
  deriving DecidableEq, Repr

/-- The fee of a transaction by what its own inputs say. -/
def declaredFee (tx : MsgTx) : ℤ :=
  int64 ((tx.txIn.foldl (fun sum txIn => int64 (sum + txIn.valueIn)) 0) -
    tx.txOut.foldl (fun sum out => int64 (sum + out.value)) 0)

/-- The number of coinbases at the front of a block's regular transactions. -/
def coinbases (header : BlockHeader) : ℕ := if isKeyBlock env header then 2 else 1

/-- `newBlockNode`: the node of a block, with the fees that its inputs declare. -/
def newBlockNode (block : MsgBlock) : BlockNode where
  hash := env.blockHash block.header
  header := block.header
  height := block.header.height
  keyHeight := block.header.keyHeight
  isKeyBlock := isKeyBlock env block.header
  totalFees := (block.transactions.drop (coinbases env block.header)).foldl
    (fun sum tx => int64 (sum + declaredFee tx)) 0

end Hcashd.Blockchain
