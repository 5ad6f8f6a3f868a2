import Hcashd.Lib.Bytes

/-!
# The wire types

The messages of `wire/msgtx.go`, `wire/msgblock.go` and `wire/blockheader.go`, with the
serialization of a block header, which seeds the ticket lottery. A hash is the number whose
thirty-two bytes, most significant first, are the bytes of the source's array: comparing two arrays
with `bytes.Compare` is comparing two hashes as numbers.
-/

namespace Hcashd

open Lib

/-- `chainhash.Hash`. It is not reducible to `Fin`, whose quantifiers are decided by going through
all its values. -/
def Hash : Type := Fin (2^256)

namespace Hash

instance : DecidableEq Hash := inferInstanceAs (DecidableEq (Fin (2^256)))
instance : LinearOrder Hash := inferInstanceAs (LinearOrder (Fin (2^256)))
instance : Ord Hash := inferInstanceAs (Ord (Fin (2^256)))
instance : Std.TransOrd Hash := inferInstanceAs (Std.TransOrd (Fin (2^256)))
instance : Std.LawfulEqOrd Hash := inferInstanceAs (Std.LawfulEqOrd (Fin (2^256)))
instance (n : ℕ) : OfNat Hash n := inferInstanceAs (OfNat (Fin (2^256)) n)
instance : Inhabited Hash := ⟨0⟩
instance : Repr Hash := inferInstanceAs (Repr (Fin (2^256)))

/-- The hash as a number. -/
def toNat (h : Hash) : ℕ := Fin.val h

/-- The hash that is a number modulo `2^256`. -/
def ofNat (n : ℕ) : Hash := Fin.ofNat (2^256) n

/-- The bytes of a hash, in the order of the source's array. -/
def bytes (h : Hash) : List UInt8 := beBytes 32 h.toNat

/-- The hash whose bytes are the first thirty-two of a list. -/
def ofBytes (bs : List UInt8) : Hash := ofNat (ofLeBytes (bs.take 32).reverse)

theorem length_bytes (h : Hash) : h.bytes.length = 32 := by
  rw [bytes, beBytes, List.length_reverse, length_leBytes]

/-- A hash comes back from its bytes. -/
theorem ofBytes_bytes (h : Hash) : ofBytes h.bytes = h := by
  have hlt : h.toNat < 256 ^ 32 := h.isLt
  rw [ofBytes, List.take_of_length_le h.length_bytes.le, bytes, beBytes, List.reverse_reverse,
    ofLeBytes_leBytes, Nat.mod_eq_of_lt hlt]
  exact Fin.ofNat_val_eq_self h

/-- The hash in the next thirty-two bytes, with the bytes after it. -/
def read (bs : List UInt8) : Hash × List UInt8 := (ofBytes (bs.take 32), bs.drop 32)

@[simp]
theorem read_append (h : Hash) (bs : List UInt8) : read (h.bytes ++ bs) = (h, bs) := by
  rw [read, List.take_left' h.length_bytes, List.drop_left' h.length_bytes, ofBytes_bytes]

end Hash

-- The constants of `wire/msgtx.go`. `MaxPrevOutIndex` is also the `math.MaxUint32` of the null
-- outpoint.
def TxTreeRegular : ℤ := 0
def TxTreeStake : ℤ := 1
def MaxPrevOutIndex : ℕ := 0xffffffff
def MaxTxInSequenceNum : ℕ := 0xffffffff
def NoExpiryValue : ℕ := 0
def NullBlockHeight : ℕ := 0
def NullBlockIndex : ℕ := 0xffffffff

/-- `wire.OutPoint`. The tree is the one that the spender says the transaction is in. -/
structure OutPoint where
  hash : Hash
  index : ℕ
  tree : ℤ
  deriving DecidableEq, Repr, Inhabited

/-- `TxIn`: an input. -/
structure TxIn where
  previousOutPoint : OutPoint
  sequence : ℕ
  -- What the spender says about the output: its amount, and the block and place that hold it.
  valueIn : ℤ
  blockHeight : ℕ
  blockIndex : ℕ
  signatureScript : List UInt8
  deriving DecidableEq, Repr, Inhabited

/-- `TxOut`: an output. -/
structure TxOut where
  value : ℤ
  version : ℕ
  pkScript : List UInt8
  deriving DecidableEq, Repr, Inhabited

/-- `MsgTx`: a transaction. -/
structure MsgTx where
  version : ℕ
  txIn : List TxIn
  txOut : List TxOut
  lockTime : ℕ
  expiry : ℕ
  deriving DecidableEq, Repr, Inhabited

/-- `wire.BlockHeader`. The timestamp is in seconds. -/
structure BlockHeader where
  version : ℤ
  prevBlock : Hash
  prevKeyBlock : Hash
  merkleRoot : Hash
  stakeRoot : Hash
  -- Bit 0 approves the regular transaction tree of the previous block.
  voteBits : ℕ
  finalState : List UInt8
  -- Numbers of votes, ticket purchases and revocations in the block.
  voters : ℕ
  freshStake : ℕ
  revocations : ℕ
  poolSize : ℕ
  bits : ℕ
  sBits : ℤ
  height : ℕ
  keyHeight : ℕ
  size : ℕ
  timestamp : ℤ
  nonce : ℕ
  extraData : List UInt8
  stakeVersion : ℕ
  deriving DecidableEq, Repr, Inhabited

/-- `MsgBlock`: a block with its regular and its stake transactions. -/
structure MsgBlock where
  header : BlockHeader
  transactions : List MsgTx
  sTransactions : List MsgTx
  deriving DecidableEq, Repr, Inhabited

/-- `(*BlockHeader).Bytes`: the fields in the order in which `writeBlockHeader` writes them. -/
def BlockHeader.bytes (bh : BlockHeader) : List UInt8 :=
  leBytes 4 (bh.version % 2^32).toNat ++ bh.prevBlock.bytes ++ bh.prevKeyBlock.bytes ++
    bh.merkleRoot.bytes ++ bh.stakeRoot.bytes ++ leBytes 2 bh.voteBits ++ bh.finalState ++
    leBytes 2 bh.voters ++ leBytes 1 bh.freshStake ++ leBytes 1 bh.revocations ++
    leBytes 4 bh.poolSize ++ leBytes 4 bh.bits ++ leBytes 8 (bh.sBits % 2^64).toNat ++
    leBytes 4 bh.height ++ leBytes 4 bh.keyHeight ++ leBytes 4 bh.size ++
    leBytes 4 (bh.timestamp % 2^32).toNat ++ bh.extraData ++ leBytes 4 bh.nonce ++
    leBytes 4 bh.stakeVersion

/-- `HashToBig`, in `blockchain` and in `blockchain/stake`: a hash is little-endian. -/
def hashToBig (hash : Hash) : ℤ := ofLeBytes hash.bytes

/-- `CompactToBig`, in `blockchain` and in `blockchain/stake`. -/
def compactToBig (compact : ℕ) : ℤ :=
  let mantissa := compact &&& 0x007fffff
  let exponent := compact >>> 24
  let bn : ℤ := if exponent ≤ 3 then ((mantissa >>> (8 * (3 - exponent)) : ℕ) : ℤ)
    else ((mantissa <<< (8 * (exponent - 3)) : ℕ) : ℤ)
  if compact &&& 0x00800000 ≠ 0 then -bn else bn

end Hcashd
