import Hcashd.Lib.Slices
import Hcashd.Script.SigEncoding
import Hcashd.Script.Stack
import Hcashd.Wire

/-!
# The script engine

`txscript/engine.go` and the opcodes of `txscript/opcode.go`. What an engine works on are slices:
the items of its stacks, the data of the parsed opcodes, and the scripts of the transaction show
parts of arrays that they may share. All bytes are therefore read from a heap, and an opcode that
makes bytes makes a new array, except `OP_CAT`, which appends to one of the items that it takes.

Curves, hash functions and the contents of a signature hash are parameters. The cache of verified
signatures only holds what verifies, and is left out.
-/

namespace Hcashd.Script

open Lib

/-! ## What an engine is given -/

/-- `chainec.DSA` and its like: a signature suite, by the functions that the engine calls. -/
structure Suite where
  PublicKey : Type
  Signature : Type
  parsePubKey : List UInt8 → Option PublicKey
  parseSignature : List UInt8 → Option Signature
  verify : PublicKey → List UInt8 → Signature → Bool

/-- The suite of secp256k1, which also reads DER. -/
structure Secp256k1 extends Suite where
  parseDERSignature : List UInt8 → Option Signature

/-- The functions that the engine uses and the allocator. -/
structure EngineEnv where
  secp256k1 : Secp256k1
  edwards : Suite
  secSchnorr : Suite
  bliss : Suite
  lms : Suite
  ripemd160 : List UInt8 → List UInt8
  sha1 : List UInt8 → List UInt8
  hashB : List UInt8 → List UInt8
  -- The hash that a signature signs, of a script, a hash type, a transaction and the index of an
  -- input.
  signatureHash : List ParsedOpcode → UInt8 → MsgTx → ℕ → List UInt8
  -- `HasP2SHScriptSigStakeOpCodes` of the two scripts.
  hasP2SHScriptSigStakeOpCodes : List UInt8 → List UInt8 → Except ScriptErr PUnit.{1}
  -- The capacity of a new array that `append` makes, for the capacity it found and the number of
  -- bytes.
  growth : ℕ → ℕ → ℕ

/-- A transaction whose scripts are slices. The scripts in `tx` itself are not used. -/
structure TxViews where
  tx : MsgTx
  signatureScripts : List Slice
  pkScripts : List Slice

/-- The transaction, with its scripts as they are. -/
def TxViews.read (heap : Heap UInt8) (views : TxViews) : MsgTx :=
  { views.tx with
    txIn := List.zipWith (fun txIn s => { txIn with signatureScript := heap.read s }) views.tx.txIn
      views.signatureScripts
    txOut := List.zipWith (fun txOut s => { txOut with pkScript := heap.read s }) views.tx.txOut
      views.pkScripts }

/-- The fields of an `Engine` that do not change. -/
structure EngineConfig where
  env : EngineEnv
  version : ℕ
  flags : ScriptFlags
  tx : TxViews
  txIdx : ℕ

/-- `parsedOpcode`, with its data as the slice of the script that it is. -/
structure Instruction where
  opcode : Opcode
  data : Slice
  deriving DecidableEq, Repr

/-- An instruction with the bytes of its data. -/
def Instruction.read (heap : Heap UInt8) (pop : Instruction) : ParsedOpcode :=
  ⟨pop.opcode, heap.read pop.data⟩

/-- The values on the conditional stack. -/
inductive OpCond
  | opCondFalse | opCondTrue | opCondSkip
  deriving DecidableEq, Repr

/-- The fields of an `Engine` that change, with the heap. The saved stack has its top first, like
the others. -/
structure Vm where
  heap : Heap UInt8
  scripts : List (List Instruction)
  scriptIdx : ℕ := 0
  scriptOff : ℕ := 0
  lastCodeSep : ℕ := 0
  dstack : List Slice := []
  astack : List Slice := []
  condStack : List OpCond := []
  numOps : ℕ := 0
  bip16 : Bool := false
  savedFirstStack : List Slice := []
  deriving DecidableEq, Repr

def MaxOpsPerScript : ℕ := 255
def MaxPubKeysPerMultiSig : ℕ := 20
def MaxScriptElementSize : ℕ := 8192
def maxStackSize : ℕ := 1024
def maxScriptSize : ℕ := 16384
def LockTimeThreshold : ℤ := 500000000
def SequenceLockTimeDisabled : ℕ := 2 ^ 31
def SequenceLockTimeIsSeconds : ℕ := 2 ^ 22
def SequenceLockTimeMask : ℕ := 0xffff
def SigHashAll : UInt8 := 1
def SigHashSingle : UInt8 := 3
def SigHashAnyOneCanPay : UInt8 := 0x80
def sigHashMask : UInt8 := 0x1f

/-! ## The data stack -/

namespace Vm

variable (vm : Vm)

/-- `PushByteArray`: pushes a slice as it is. -/
def pushByteArray (so : Slice) : Vm := { vm with dstack := so :: vm.dstack }

/-- A push of a new array. -/
def pushNew (bytes : List UInt8) (cap : ℕ) : Vm :=
  let (heap, so) := vm.heap.alloc bytes cap
  { vm with heap, dstack := so :: vm.dstack }

/-- `PushInt`. The bytes of a number that is not zero have room for nine. -/
def pushInt (val : ℤ) : Vm :=
  if val = 0 then vm.pushByteArray .nil else vm.pushNew (scriptNumBytes val) 9

/-- `PushBool`: pushes one or nothing. -/
def pushBool (val : Bool) : Vm :=
  if val then vm.pushNew (fromBool true) 1 else vm.pushByteArray .nil

/-- `PopByteArray`: takes the top slice. -/
def popByteArray : Except ScriptErr (Slice × Vm) := match vm.dstack with
  | [] => .error .underflow
  | so :: dstack => .ok (so, { vm with dstack })

/-- `PopInt`: takes the top slice as a number. -/
def popInt (cfg : EngineConfig) (maxLen : ℕ) : Except ScriptErr (ℤ × Vm) := do
  let (so, vm) ← vm.popByteArray
  let n ← makeScriptNum (vm.heap.read so) cfg.flags.verifyMinimalData maxLen
  .ok (n, vm)

/-- `PopBool`: takes the top slice as a truth value. -/
def popBool : Except ScriptErr (Bool × Vm) := do
  let (so, vm) ← vm.popByteArray
  .ok (asBool (vm.heap.read so), vm)

/-- The items taken by a loop, the top one first. -/
def popByteArrays : ℕ → Vm → Except ScriptErr (List Slice × Vm)
  | 0, vm => .ok ([], vm)
  | n + 1, vm => do
    let (so, vm) ← vm.popByteArray
    let (rest, vm) ← popByteArrays n vm
    .ok (so :: rest, vm)

/-- A function of the stack. -/
def onStack (f : List Slice → Except ScriptErr (List Slice)) : Except ScriptErr Vm := do
  let dstack ← f vm.dstack
  .ok { vm with dstack }

/-- `isBranchExecuting`: no condition, or the innermost one is true. -/
def isBranchExecuting : Bool := match vm.condStack with
  | [] => true
  | cond :: _ => cond == .opCondTrue

end Vm

/-! ## Opcodes -/

/-- The function of an opcode. -/
abbrev Opfunc := EngineConfig → Instruction → Vm → Except ScriptErr Vm

def opcodeDisabled : Opfunc := fun _ _ _ => .error .opDisabled
def opcodeReserved : Opfunc := fun _ _ _ => .error .reservedOpcode
def opcodeInvalid : Opfunc := fun _ _ _ => .error .invalidOpcode
def opcodeReturn : Opfunc := fun _ _ _ => .error .earlyReturn
def opcodeFalse : Opfunc := fun _ _ vm => .ok (vm.pushByteArray .nil)
def opcodePushData : Opfunc := fun _ pop vm => .ok (vm.pushByteArray pop.data)
def opcode1Negate : Opfunc := fun _ _ vm => .ok (vm.pushInt (-1))
def opcodeN : Opfunc := fun _ pop vm => .ok (vm.pushInt (pop.opcode.value - 80).toNat)

/-- `opcodeNop`: `OP_NOP1`, `OP_NOP4` to `OP_NOP10` and the unknown opcodes up to 248 are kept for
upgrades. -/
def opcodeNop : Opfunc := fun cfg pop vm => do
  let value := pop.opcode.value.toNat
  rejectIf ((value = 176 ∨ (179 ≤ value ∧ value ≤ 185) ∨ (192 ≤ value ∧ value ≤ 248)) ∧
    cfg.flags.discourageUpgradableNops = true) .other
  .ok vm

/-! ### Conditionals -/

/-- `opcodeIf` and `opcodeNotIf`, which take the branch for one of the two truth values. -/
def pushCond (taken : Bool) : Opfunc := fun _ _ vm =>
  if vm.isBranchExecuting then do
    let (ok, vm) ← vm.popBool
    .ok { vm with condStack := (if ok = taken then .opCondTrue else .opCondFalse) :: vm.condStack }
  else .ok { vm with condStack := .opCondSkip :: vm.condStack }

def opcodeIf : Opfunc := pushCond true
def opcodeNotIf : Opfunc := pushCond false

/-- Turns the innermost condition round. -/
def opcodeElse : Opfunc := fun _ _ vm => match vm.condStack with
  | [] => .error .noIf
  | .opCondTrue :: rest => .ok { vm with condStack := .opCondFalse :: rest }
  | .opCondFalse :: rest => .ok { vm with condStack := .opCondTrue :: rest }
  | .opCondSkip :: _ => .ok vm

/-- Ends the innermost condition. -/
def opcodeEndif : Opfunc := fun _ _ vm => match vm.condStack with
  | [] => .error .noIf
  | _ :: rest => .ok { vm with condStack := rest }

/-- Fails unless the top is true. -/
def opcodeVerify : Opfunc := fun _ _ vm => do
  let (verified, vm) ← vm.popBool
  rejectIf (verified = false) .verifyFailed
  .ok vm

/-- An opcode followed by `opcodeVerify`. -/
def thenVerify (f : Opfunc) : Opfunc := fun cfg pop vm => do
  let vm ← f cfg pop vm
  opcodeVerify cfg pop vm

/-! ### Lock times -/

/-- `verifyLockTime`: both times are of one kind, and the first is over. -/
def verifyLockTime (txLockTime threshold lockTime : ℤ) : Except ScriptErr PUnit := do
  rejectIf (¬ ((txLockTime < threshold ∧ lockTime < threshold) ∨
    (threshold ≤ txLockTime ∧ threshold ≤ lockTime)))
    .other
  rejectIf (txLockTime < lockTime) .other

/-- The sequence of the input that is executed. -/
def EngineConfig.sequence (cfg : EngineConfig) : Except ScriptErr ℕ :=
  match cfg.tx.tx.txIn[cfg.txIdx]? with
  | none => .error .panic
  | some txIn => .ok txIn.sequence

/-- The operand of the two opcodes, which stays on the stack. -/
def peekLockTime (cfg : EngineConfig) (vm : Vm) : Except ScriptErr ℤ := do
  let so ← peek vm.dstack 0
  let lockTime ← makeScriptNum (vm.heap.read so) cfg.flags.verifyMinimalData 5
  rejectIf (lockTime < 0) .other
  .ok lockTime

/-- Compares the top with the lock time of the transaction. -/
def opcodeCheckLockTimeVerify : Opfunc := fun cfg _ vm =>
  if !cfg.flags.verifyCheckLockTimeVerify then do
    rejectIf (cfg.flags.discourageUpgradableNops = true) .other
    .ok vm
  else do
    let lockTime ← peekLockTime cfg vm
    verifyLockTime cfg.tx.tx.lockTime LockTimeThreshold lockTime
    rejectIf ((← cfg.sequence) = MaxTxInSequenceNum) .other
    .ok vm

/-- Compares the top with the sequence of the input. -/
def opcodeCheckSequenceVerify : Opfunc := fun cfg _ vm =>
  if !cfg.flags.verifyCheckSequenceVerify then do
    rejectIf (cfg.flags.discourageUpgradableNops = true) .other
    .ok vm
  else do
    rejectIf (cfg.tx.tx.version < 2) .other
    let sequence := (← peekLockTime cfg vm).toNat
    if sequence &&& SequenceLockTimeDisabled ≠ 0 then .ok vm
    else do
      let txSequence ← cfg.sequence
      rejectIf (txSequence &&& SequenceLockTimeDisabled ≠ 0) .other
      let lockTimeMask := SequenceLockTimeIsSeconds ||| SequenceLockTimeMask
      verifyLockTime (txSequence &&& lockTimeMask : ℕ) SequenceLockTimeIsSeconds
        (sequence &&& lockTimeMask : ℕ)
      .ok vm

/-! ### Stacks -/

/-- Moves the top to the other stack. -/
def opcodeToAltStack : Opfunc := fun _ _ vm => do
  let (so, vm) ← vm.popByteArray
  .ok { vm with astack := so :: vm.astack }

/-- Moves the top of the other stack back. -/
def opcodeFromAltStack : Opfunc := fun _ _ vm => match vm.astack with
  | [] => .error .underflow
  | so :: astack => .ok ({ vm with astack }.pushByteArray so)

def opcode2Drop : Opfunc := fun _ _ vm => vm.onStack (dropN 2)
def opcode2Dup : Opfunc := fun _ _ vm => vm.onStack (dupN 2)
def opcode3Dup : Opfunc := fun _ _ vm => vm.onStack (dupN 3)
def opcode2Over : Opfunc := fun _ _ vm => vm.onStack (overN 2)
def opcode2Rot : Opfunc := fun _ _ vm => vm.onStack (rotN 2)
def opcode2Swap : Opfunc := fun _ _ vm => vm.onStack (swapN 2)
def opcodeDrop : Opfunc := fun _ _ vm => vm.onStack (dropN 1)
def opcodeDup : Opfunc := fun _ _ vm => vm.onStack (dupN 1)
def opcodeNip : Opfunc := fun _ _ vm => vm.onStack (dropNth · 1)
def opcodeOver : Opfunc := fun _ _ vm => vm.onStack (overN 1)
def opcodeRot : Opfunc := fun _ _ vm => vm.onStack (rotN 1)
def opcodeSwap : Opfunc := fun _ _ vm => vm.onStack (swapN 1)
def opcodeTuck : Opfunc := fun _ _ vm => vm.onStack tuck

/-- Duplicates the top if it is true. -/
def opcodeIfDup : Opfunc := fun _ _ vm => do
  let so ← peek vm.dstack 0
  if asBool (vm.heap.read so) then .ok (vm.pushByteArray so) else .ok vm

/-- Pushes the number of items. -/
def opcodeDepth : Opfunc := fun _ _ vm => .ok (vm.pushInt vm.dstack.length)

/-- An opcode that takes the number for a function of the stack from its top. -/
def onStackAt (f : List Slice → ℤ → Except ScriptErr (List Slice)) : Opfunc := fun cfg _ vm => do
  let (val, vm) ← vm.popInt cfg mathOpCodeMaxScriptNumLen
  vm.onStack (f · (int32 val))

def opcodePick : Opfunc := onStackAt pickN
def opcodeRoll : Opfunc := onStackAt rollN

/-! ### Bytes -/

/-- Appends the top to the item below, by `append` in Go. -/
def opcodeCat : Opfunc := fun cfg _ vm => do
  let (a, vm) ← vm.popByteArray
  let (b, vm) ← vm.popByteArray
  if a.len = 0 ∧ 0 < b.len then .ok (vm.pushByteArray b)
  else if b.len = 0 ∧ 0 < a.len then .ok (vm.pushByteArray a)
  else if b.len = 0 ∧ a.len = 0 then .ok (vm.pushByteArray .nil)
  else do
    rejectIf (MaxScriptElementSize < a.len + b.len) .elementTooBig
    let (heap, c) := vm.heap.append b a (cfg.env.growth b.cap (a.len + b.len))
    .ok ({ vm with heap }.pushByteArray c)

/-- Replaces an item by a part of it. -/
def opcodeSubstr : Opfunc := fun cfg _ vm => do
  let (v0, vm) ← vm.popInt cfg mathOpCodeMaxScriptNumLen
  let (v1, vm) ← vm.popInt cfg mathOpCodeMaxScriptNumLen
  let (a, vm) ← vm.popByteArray
  let v0 := int32 v0
  let v1 := int32 v1
  if a.len = 0 then .ok (vm.pushByteArray .nil)
  else do
    rejectIf (v0 < 0 ∨ v1 < 0) .substrIdxNegative
    rejectIf (a.len < v0) .substrIdxOutOfBounds
    rejectIf (a.len < v1) .substrIdxOutOfBounds
    rejectIf (v1 < v0) .substrIdxOutOfBounds
    if v0 = v1 then .ok (vm.pushByteArray .nil)
    else .ok (vm.pushByteArray (a.sub v0.toNat v1.toNat))

/-- Replaces an item by its first bytes. -/
def opcodeLeft : Opfunc := fun cfg _ vm => do
  let (v0, vm) ← vm.popInt cfg mathOpCodeMaxScriptNumLen
  let (a, vm) ← vm.popByteArray
  let v0 := int32 v0
  if a.len = 0 then .ok (vm.pushByteArray .nil)
  else do
    rejectIf (v0 < 0) .substrIdxNegative
    rejectIf (a.len < v0) .substrIdxOutOfBounds
    if v0 = 0 then .ok (vm.pushByteArray .nil)
    else .ok (vm.pushByteArray (a.sub 0 v0.toNat))

/-- Replaces an item by its last bytes. -/
def opcodeRight : Opfunc := fun cfg _ vm => do
  let (v0, vm) ← vm.popInt cfg mathOpCodeMaxScriptNumLen
  let (a, vm) ← vm.popByteArray
  let v0 := int32 v0
  if a.len = 0 then .ok (vm.pushByteArray .nil)
  else do
    rejectIf (v0 < 0) .substrIdxNegative
    rejectIf (a.len < v0) .substrIdxOutOfBounds
    if v0 = a.len then .ok (vm.pushByteArray .nil)
    else .ok (vm.pushByteArray (a.sub v0.toNat a.len))

/-- Pushes the length of the top. -/
def opcodeSize : Opfunc := fun _ _ vm => do
  let so ← peek vm.dstack 0
  .ok (vm.pushInt so.len)

/-- Compares two items byte by byte. -/
def opcodeEqual : Opfunc := fun _ _ vm => do
  let (a, vm) ← vm.popByteArray
  let (b, vm) ← vm.popByteArray
  .ok (vm.pushBool (vm.heap.read a = vm.heap.read b))

/-- Compares two items and fails unless they are equal. -/
def opcodeEqualVerify : Opfunc := thenVerify opcodeEqual

/-! ### Arithmetic -/

/-- An opcode of one number. -/
def unaryNum (f : ℤ → ℤ) : Opfunc := fun cfg _ vm => do
  let (m, vm) ← vm.popInt cfg mathOpCodeMaxScriptNumLen
  .ok (vm.pushInt (f m))

/-- An opcode of two numbers, the one on top first. -/
def binaryNum (f : ℤ → ℤ → Except ScriptErr ℤ) : Opfunc := fun cfg _ vm => do
  let (v0, vm) ← vm.popInt cfg mathOpCodeMaxScriptNumLen
  let (v1, vm) ← vm.popInt cfg mathOpCodeMaxScriptNumLen
  let v2 ← f v0 v1
  .ok (vm.pushInt v2)

/-- The 32-bit number that `Int32` gives. -/
def word (n : ℤ) : BitVec 32 := BitVec.ofInt 32 (int32 n)

/-- One or zero, as a number. -/
def boolNum (p : Prop) [Decidable p] : ℤ := if p then 1 else 0

/-- The shift count of `OP_ROTR`, `OP_ROTL`, `OP_LSHIFT` and `OP_RSHIFT`. -/
def shiftCount (v : ℤ) (bound : ℤ) (errNegative errOverflow : ScriptErr) : Except ScriptErr ℕ := do
  rejectIf (int32 v < 0) errNegative
  rejectIf (bound < int32 v) errOverflow
  .ok (int32 v).toNat

def rotateRight (v : BitVec 32) (c : ℕ) : BitVec 32 := (v >>> c) ||| (v <<< (32 - c))
def rotateLeft (v : BitVec 32) (c : ℕ) : BitVec 32 := (v <<< c) ||| (v >>> (32 - c))

def opcodeInvert : Opfunc := unaryNum fun v0 => (~~~ word v0).toInt
def opcodeAnd : Opfunc := binaryNum fun v0 v1 => .ok (word v0 &&& word v1).toInt
def opcodeOr : Opfunc := binaryNum fun v0 v1 => .ok (word v0 ||| word v1).toInt
def opcodeXor : Opfunc := binaryNum fun v0 v1 => .ok (word v0 ^^^ word v1).toInt

/-- Rotates a word to the right. -/
def opcodeRotr : Opfunc := binaryNum fun v0 v1 => do
  let c ← shiftCount v0 31 .negativeRotation .rotationOverflow
  .ok (rotateRight (word v1) c).toInt

/-- Rotates a word to the left. -/
def opcodeRotl : Opfunc := binaryNum fun v0 v1 => do
  let c ← shiftCount v0 31 .negativeRotation .rotationOverflow
  .ok (rotateLeft (word v1) c).toInt

def opcode1Add : Opfunc := unaryNum (· + 1)
def opcode1Sub : Opfunc := unaryNum (· - 1)
def opcodeNegate : Opfunc := unaryNum (- ·)
def opcodeAbs : Opfunc := unaryNum fun m => if m < 0 then -m else m
def opcodeNot : Opfunc := unaryNum fun m => boolNum (m = 0)
def opcode0NotEqual : Opfunc := unaryNum fun m => boolNum (m ≠ 0)
def opcodeAdd : Opfunc := binaryNum fun v0 v1 => .ok (v0 + v1)
def opcodeSub : Opfunc := binaryNum fun v0 v1 => .ok (v1 - v0)
def opcodeMul : Opfunc := binaryNum fun v0 v1 => .ok (word v0 * word v1).toInt

/-- Divides, towards zero. -/
def opcodeDiv : Opfunc := binaryNum fun v0 v1 => do
  rejectIf (int32 v0 = 0) .divideByZero
  .ok ((word v1).sdiv (word v0)).toInt

/-- The remainder of a division towards zero. -/
def opcodeMod : Opfunc := binaryNum fun v0 v1 => do
  rejectIf (int32 v0 = 0) .divideByZero
  .ok ((word v1).srem (word v0)).toInt

/-- Shifts a word to the left. -/
def opcodeLShift : Opfunc := binaryNum fun v0 v1 => do
  let c ← shiftCount v0 32 .negativeShift .shiftOverflow
  .ok (word v1 <<< c).toInt

/-- Shifts a word to the right, with its sign. -/
def opcodeRShift : Opfunc := binaryNum fun v0 v1 => do
  let c ← shiftCount v0 32 .negativeShift .shiftOverflow
  .ok ((word v1).sshiftRight c).toInt

def opcodeBoolAnd : Opfunc := binaryNum fun v0 v1 => .ok (boolNum (v0 ≠ 0 ∧ v1 ≠ 0))
def opcodeBoolOr : Opfunc := binaryNum fun v0 v1 => .ok (boolNum (v0 ≠ 0 ∨ v1 ≠ 0))
def opcodeNumEqual : Opfunc := binaryNum fun v0 v1 => .ok (boolNum (v0 = v1))
def opcodeNumEqualVerify : Opfunc := thenVerify opcodeNumEqual
def opcodeNumNotEqual : Opfunc := binaryNum fun v0 v1 => .ok (boolNum (v0 ≠ v1))
def opcodeLessThan : Opfunc := binaryNum fun v0 v1 => .ok (boolNum (v1 < v0))
def opcodeGreaterThan : Opfunc := binaryNum fun v0 v1 => .ok (boolNum (v0 < v1))
def opcodeLessThanOrEqual : Opfunc := binaryNum fun v0 v1 => .ok (boolNum (v1 ≤ v0))
def opcodeGreaterThanOrEqual : Opfunc := binaryNum fun v0 v1 => .ok (boolNum (v0 ≤ v1))
def opcodeMin : Opfunc := binaryNum fun v0 v1 => .ok (if v1 < v0 then v1 else v0)
def opcodeMax : Opfunc := binaryNum fun v0 v1 => .ok (if v0 < v1 then v1 else v0)

/-- Whether a number is in a range, without its upper end. -/
def opcodeWithin : Opfunc := fun cfg _ vm => do
  let (maxVal, vm) ← vm.popInt cfg mathOpCodeMaxScriptNumLen
  let (minVal, vm) ← vm.popInt cfg mathOpCodeMaxScriptNumLen
  let (x, vm) ← vm.popInt cfg mathOpCodeMaxScriptNumLen
  .ok (vm.pushInt (boolNum (minVal ≤ x ∧ x < maxVal)))

/-! ### Hashes -/

/-- An opcode that hashes an item. `Sum` appends to nothing, the other results are arrays of their
own length. -/
def hashOp (hash : EngineEnv → List UInt8 → List UInt8) (sums : Bool) : Opfunc := fun cfg _ vm => do
  let (buf, vm) ← vm.popByteArray
  let bytes := hash cfg.env (vm.heap.read buf)
  .ok (vm.pushNew bytes (if sums then cfg.env.growth 0 bytes.length else bytes.length))

def opcodeRipemd160 : Opfunc := hashOp (fun env buf => env.ripemd160 buf) true
def opcodeSha1 : Opfunc := hashOp (fun env buf => env.sha1 buf) false
def opcodeSha256 : Opfunc := hashOp (fun env buf => env.hashB buf) true
def opcodeHash160 : Opfunc := hashOp (fun env buf => env.ripemd160 (env.hashB buf)) true
def opcodeHash256 : Opfunc := hashOp (fun env buf => env.hashB (env.hashB buf)) true

/-! ### Signatures -/

/-- `checkHashTypeEncoding`: a known hash type, if strict encodings are asked for. -/
def checkHashTypeEncoding (flags : ScriptFlags) (hashType : UInt8) : Except ScriptErr PUnit := do
  let sigHashType := hashType &&& ~~~SigHashAnyOneCanPay
  rejectIf (flags.verifyStrictEncoding = true ∧
    (sigHashType < SigHashAll ∨ SigHashSingle < sigHashType)) .other

/-- `checkPubKeyEncoding`: a compressed or an uncompressed key. -/
def checkPubKeyEncoding (flags : ScriptFlags) (pubKey : List UInt8) : Except ScriptErr PUnit :=
  rejectIf (flags.verifyStrictEncoding = true ∧
    ¬ (pubKey.length = 33 ∧ (pubKey[0]? = some 2 ∨ pubKey[0]? = some 3)) ∧
    ¬ (pubKey.length = 65 ∧ pubKey[0]? = some 4)) .invalidPubKey

/-- `subScript`, with its bytes. -/
def Vm.subScript (vm : Vm) : Except ScriptErr (List ParsedOpcode) :=
  match vm.scripts[vm.scriptIdx]? with
  | none => .error .panic
  | some script => .ok ((script.drop vm.lastCodeSep).map (Instruction.read vm.heap))

/-- `canonicalPush`: data is pushed by the shortest opcode for it. -/
def ParsedOpcode.canonicalPush (pop : ParsedOpcode) : Bool :=
  let opcode := pop.opcode.value.toNat
  if 96 < opcode then true
  else if opcode < 76 ∧ 0 < opcode ∧ pop.data.length = 1 ∧ pop.data.all (· ≤ 16) then false
  else if opcode = 76 ∧ pop.data.length < 76 then false
  else if opcode = 77 ∧ pop.data.length ≤ 0xff then false
  else if opcode = 78 ∧ pop.data.length ≤ 0xffff then false
  else true

/-- `removeOpcodeByData`: the script without pushes of some data. -/
def removeOpcodeByData (script : List ParsedOpcode) (data : List UInt8) : List ParsedOpcode :=
  script.filter fun pop => !pop.canonicalPush || !decide (data <:+: pop.data)

/-- `calcSignatureHash`: what a signature signs. -/
def calcSignatureHash (cfg : EngineConfig) (heap : Heap UInt8) (script : List ParsedOpcode)
    (hashType : UInt8) :
    Except ScriptErr (List UInt8) := do
  rejectIf (hashType &&& sigHashMask = SigHashSingle ∧ cfg.tx.tx.txOut.length ≤ cfg.txIdx)
    .sighashSingleIdx
  .ok (cfg.env.signatureHash script hashType (cfg.tx.read heap) cfg.txIdx)

/-- `ParseDERSignature` or `ParseSignature`, as the flags say. -/
def EngineConfig.parseSignature (cfg : EngineConfig) (sig : List UInt8) :
    Option cfg.env.secp256k1.Signature :=
  if cfg.flags.verifyStrictEncoding || cfg.flags.verifyDERSignatures
    then cfg.env.secp256k1.parseDERSignature sig
  else cfg.env.secp256k1.parseSignature sig

/-- `opcodeCheckSig` on the bytes of a key and a signature. -/
def checkSig (cfg : EngineConfig) (vm : Vm) (pkBytes fullSigBytes : List UInt8) :
    Except ScriptErr Bool :=
  match fullSigBytes.getLast? with
  | none => .ok false
  | some hashType => do
    let sigBytes := fullSigBytes.dropLast
    checkHashTypeEncoding cfg.flags hashType
    checkSignatureEncoding cfg.flags sigBytes
    checkPubKeyEncoding cfg.flags pkBytes
    let subScript := removeOpcodeByData (← vm.subScript) fullSigBytes
    match calcSignatureHash cfg vm.heap subScript hashType with
    | .error _ => .ok false
    | .ok hash =>
      match cfg.env.secp256k1.parsePubKey pkBytes, cfg.parseSignature sigBytes with
      | some pubKey, some signature => .ok (cfg.env.secp256k1.verify pubKey hash signature)
      | _, _ => .ok false

/-- Pushes whether the signature is good. -/
def opcodeCheckSig : Opfunc := fun cfg _ vm => do
  let (pk, vm) ← vm.popByteArray
  let (sig, vm) ← vm.popByteArray
  let valid ← checkSig cfg vm (vm.heap.read pk) (vm.heap.read sig)
  .ok (vm.pushBool valid)

/-- Fails unless the signature is good. -/
def opcodeCheckSigVerify : Opfunc := thenVerify opcodeCheckSig

/-- `parsedSigInfo`: a signature, which is parsed at most once. -/
structure ParsedSigInfo (S : Type) where
  signature : List UInt8
  parsedSignature : Option S := none
  parsed : Bool := false

/-- The part of a turn of the loop of `opcodeCheckMultiSig` that parses the signature, unless an
earlier turn did. -/
def parseOnce (cfg : EngineConfig) (sigInfo : ParsedSigInfo cfg.env.secp256k1.Signature)
    (hashType : UInt8) :
    Except ScriptErr (ParsedSigInfo cfg.env.secp256k1.Signature) :=
  if sigInfo.parsed then .ok sigInfo
  else do
    let signature := sigInfo.signature.dropLast
    checkHashTypeEncoding cfg.flags hashType
    checkSignatureEncoding cfg.flags signature
    .ok { sigInfo with parsed := true, parsedSignature := cfg.parseSignature signature }

/-- The rest of a turn: whether the signature verifies under the key. Keys that do not parse are
passed over. -/
def verifyUnder (cfg : EngineConfig) (heap : Heap UInt8) (script : List ParsedOpcode)
    (hashType : UInt8)
    (parsedSig : cfg.env.secp256k1.Signature) (pubKey : List UInt8) : Except ScriptErr Bool := do
  checkPubKeyEncoding cfg.flags pubKey
  match cfg.env.secp256k1.parsePubKey pubKey with
  | none => .ok false
  | some parsedPubKey => do
    let hash ← calcSignatureHash cfg heap script hashType
    .ok (cfg.env.secp256k1.verify parsedPubKey hash parsedSig)

/-- A turn of the loop of `opcodeCheckMultiSig`: whether the signature is done with this key. All
the ways to the next key are the same. -/
def multiSigTurn (cfg : EngineConfig) (heap : Heap UInt8) (script : List ParsedOpcode)
    (pubKey : List UInt8) (sigInfo : ParsedSigInfo cfg.env.secp256k1.Signature) :
    Except ScriptErr (Bool × ParsedSigInfo cfg.env.secp256k1.Signature) :=
  match sigInfo.signature.getLast? with
  | none => .ok (false, sigInfo)
  | some hashType => do
    let sigInfo ← parseOnce cfg sigInfo hashType
    match sigInfo.parsedSignature with
    | none => .ok (false, sigInfo)
    | some parsedSig => do
      let valid ← verifyUnder cfg heap script hashType parsedSig pubKey
      .ok (valid, sigInfo)

/-- The loop of `opcodeCheckMultiSig`, by its counters: `numPubKeys` before it is decremented,
`numSignatures`, and the indexes of the key and the signature. An index outside of its list is a
panic. -/
def multiSigLoop (cfg : EngineConfig) (heap : Heap UInt8) (script : List ParsedOpcode)
    (pubKeys : List (List UInt8)) :
    ℕ → ℕ → ℕ → ℕ → List (ParsedSigInfo cfg.env.secp256k1.Signature) → Except ScriptErr Bool
  | _, 0, _, _, _ => .ok true
  | 0, _ + 1, _, _, _ => .ok false
  | numPubKeys + 1, numSignatures + 1, pubKeyIdx, signatureIdx, signatures =>
    if numPubKeys < numSignatures + 1 then .ok false
    else match signatures[signatureIdx]?, pubKeys[pubKeyIdx]? with
      | some sigInfo, some pubKey => do
        let (valid, sigInfo) ← multiSigTurn cfg heap script pubKey sigInfo
        let sigs := signatures.set signatureIdx sigInfo
        if valid then
          multiSigLoop cfg heap script pubKeys numPubKeys numSignatures (pubKeyIdx + 1)
            (signatureIdx + 1) sigs
        else
          multiSigLoop cfg heap script pubKeys numPubKeys (numSignatures + 1) (pubKeyIdx + 1)
            signatureIdx sigs
      | _, _ => .error .panic

/-- What `opcodeCheckMultiSig` takes from the stack: the keys and the signatures. -/
def popMultiSig (cfg : EngineConfig) (vm : Vm) :
    Except ScriptErr (List Slice × List Slice × Vm) := do
  let (numKeys, vm) ← vm.popInt cfg mathOpCodeMaxScriptNumLen
  rejectIf (int32 numKeys < 0 ∨ (MaxPubKeysPerMultiSig : ℤ) < int32 numKeys) .tooManyPubKeys
  let numPubKeys := (int32 numKeys).toNat
  let vm := { vm with numOps := vm.numOps + numPubKeys }
  rejectIf (MaxOpsPerScript < vm.numOps) .tooManyOperations
  let (pubKeys, vm) ← vm.popByteArrays numPubKeys
  let (numSigs, vm) ← vm.popInt cfg mathOpCodeMaxScriptNumLen
  rejectIf (int32 numSigs < 0) .other
  rejectIf ((numPubKeys : ℤ) < int32 numSigs) .other
  let (signatures, vm) ← vm.popByteArrays (int32 numSigs).toNat
  .ok (pubKeys, signatures, vm)

/-- `opcodeCheckMultiSig` after the keys and the signatures are taken. -/
def checkMultiSig (cfg : EngineConfig) (vm : Vm) (pubKeys signatures : List (List UInt8)) :
    Except ScriptErr Bool := do
  let script := signatures.foldl removeOpcodeByData (← vm.subScript)
  multiSigLoop cfg vm.heap script pubKeys (pubKeys.length + 1) signatures.length 0 0
    (signatures.map fun signature => { signature })

/-- Pushes whether enough signatures are good. -/
def opcodeCheckMultiSig : Opfunc := fun cfg _ vm => do
  let (pubKeys, signatures, vm) ← popMultiSig cfg vm
  let success ← checkMultiSig cfg vm (pubKeys.map vm.heap.read) (signatures.map vm.heap.read)
  .ok (vm.pushBool success)

/-- Fails unless enough signatures are good. -/
def opcodeCheckMultiSigVerify : Opfunc := thenVerify opcodeCheckMultiSig

/-- The signature types of `opcodeCheckSigAlt`. -/
inductive SigType
  | edwards | secSchnorr | bliss | lm
  deriving DecidableEq, Repr

/-- A signature type, from its number: zero stands for none, and the numbers without a type for
types to come. -/
def sigTypeOf (n : ℤ) : Option (Option SigType) := match n.toNat with
  | 0 => if n < 0 then some none else none
  | 1 => some (some .edwards)
  | 2 => some (some .secSchnorr)
  | 4 => some (some .bliss)
  | 5 => some (some .lm)
  | _ => some none

/-- The functions of a kind of signature. -/
def EngineEnv.suite (env : EngineEnv) : SigType → Suite
  | .edwards => env.edwards
  | .secSchnorr => env.secSchnorr
  | .bliss => env.bliss
  | .lm => env.lms

/-- The length of a key of a kind. -/
def SigType.keyLength : SigType → ℕ
  | .edwards => 32
  | .secSchnorr => 33
  | .bliss => 897
  | .lm => 32

/-- The lengths of a signature with its hash type that are let through: Bliss and LMS signatures are
not checked. -/
def SigType.allowsLength : SigType → ℕ → Bool
  | .edwards, n => n == 65
  | .secSchnorr, n => n == 65
  | .bliss, _ => true
  | .lm, _ => true

/-- `opcodeCheckSigAlt` on the bytes of a signature. Without bytes there is no hash type to read. -/
def checkSigAlt (cfg : EngineConfig) (vm : Vm) (sigType : SigType)
    (pkBytes fullSigBytes : List UInt8) :
    Except ScriptErr Bool :=
  if !sigType.allowsLength fullSigBytes.length then .ok false
  else match fullSigBytes.getLast? with
    | none => .error .panic
    | some hashType => do
      checkHashTypeEncoding cfg.flags hashType
      let subScript := removeOpcodeByData (← vm.subScript) fullSigBytes
      match calcSignatureHash cfg vm.heap subScript hashType with
      | .error _ => .ok false
      | .ok hash =>
        let suite := cfg.env.suite sigType
        match suite.parsePubKey pkBytes, suite.parseSignature fullSigBytes.dropLast with
        | some pubKey, some signature => .ok (suite.verify pubKey hash signature)
        | _, _ => .ok false

/-- Pushes whether a signature of another suite is good. -/
def opcodeCheckSigAlt : Opfunc := fun cfg _ vm => do
  let (n, vm) ← vm.popInt cfg altSigSuitesMaxscriptNumLen
  match sigTypeOf n with
  | none => .ok (vm.pushBool false)
  | some none => .ok (vm.pushBool true)
  | some (some sigType) => do
    let (pk, vm) ← vm.popByteArray
    if pk.len ≠ sigType.keyLength then .ok (vm.pushBool false)
    else do
      let (sig, vm) ← vm.popByteArray
      let valid ← checkSigAlt cfg vm sigType (vm.heap.read pk) (vm.heap.read sig)
      .ok (vm.pushBool valid)

/-- Fails unless a signature of another suite is good. -/
def opcodeCheckSigAltVerify : Opfunc := thenVerify opcodeCheckSigAlt

end Hcashd.Script
