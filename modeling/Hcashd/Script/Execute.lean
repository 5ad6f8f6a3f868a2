import Hcashd.Script.Engine

/-!
# Running scripts

The rest of `txscript/engine.go`: which function an opcode has, what is checked before it runs, how
a step of the engine goes from one opcode to the next and from one script to the next, and how an
engine is made.
-/

namespace Hcashd.Script

open Lib

/-! ## Opcodes by their values -/

/-- The functions in `opcodeArray` of the opcodes that are not in a row with the same function. -/
def opfuncs : List (ℕ × Opfunc) :=
  [(0, opcodeFalse), (79, opcode1Negate), (80, opcodeReserved), (98, opcodeReserved),
    (99, opcodeIf), (100, opcodeNotIf), (101, opcodeReserved), (102, opcodeReserved),
    (103, opcodeElse), (104, opcodeEndif),
    (105, opcodeVerify), (106, opcodeReturn), (107, opcodeToAltStack), (108, opcodeFromAltStack),
    (109, opcode2Drop),
    (110, opcode2Dup), (111, opcode3Dup), (112, opcode2Over), (113, opcode2Rot), (114, opcode2Swap),
    (115, opcodeIfDup), (116, opcodeDepth), (117, opcodeDrop), (118, opcodeDup), (119, opcodeNip),
    (120, opcodeOver), (121, opcodePick), (122, opcodeRoll), (123, opcodeRot), (124, opcodeSwap),
    (125, opcodeTuck), (126, opcodeCat),
    (127, opcodeSubstr), (128, opcodeLeft), (129, opcodeRight), (130, opcodeSize),
    (131, opcodeInvert), (132, opcodeAnd), (133, opcodeOr), (134, opcodeXor), (135, opcodeEqual),
    (136, opcodeEqualVerify), (137, opcodeRotr), (138, opcodeRotl), (139, opcode1Add),
    (140, opcode1Sub), (143, opcodeNegate), (144, opcodeAbs),
    (145, opcodeNot), (146, opcode0NotEqual), (147, opcodeAdd), (148, opcodeSub), (149, opcodeMul),
    (150, opcodeDiv), (151, opcodeMod), (152, opcodeLShift), (153, opcodeRShift),
    (154, opcodeBoolAnd), (155, opcodeBoolOr),
    (156, opcodeNumEqual), (157, opcodeNumEqualVerify), (158, opcodeNumNotEqual),
    (159, opcodeLessThan), (160, opcodeGreaterThan), (161, opcodeLessThanOrEqual),
    (162, opcodeGreaterThanOrEqual), (163, opcodeMin),
    (164, opcodeMax), (165, opcodeWithin), (166, opcodeRipemd160), (167, opcodeSha1),
    (168, opcodeSha256),
    (169, opcodeHash160), (170, opcodeHash256), (171, opcodeDisabled), (172, opcodeCheckSig),
    (173, opcodeCheckSigVerify), (174, opcodeCheckMultiSig), (175, opcodeCheckMultiSigVerify),
    (177, opcodeCheckLockTimeVerify), (178, opcodeCheckSequenceVerify), (190, opcodeCheckSigAlt),
    (191, opcodeCheckSigAltVerify)]

/-- The functions in `opcodeArray`: data pushes, `OP_1` to `OP_16`, the invalid opcodes and
everything else that does nothing come in rows. -/
def opfunc (value : UInt8) : Opfunc := match opfuncs.lookup value.toNat with
  | some f => f
  | none =>
    if value.toNat ≤ 78 then opcodePushData
    else if value.toNat ≤ 96 then opcodeN
    else if value.toNat ≤ 248 then opcodeNop
    else opcodeInvalid

def OP_CAT : UInt8 := 126

/-- `isDisabled`: `OP_CODESEPARATOR`. -/
def Opcode.isDisabled (op : Opcode) : Bool := op.value == 171

/-- `alwaysIllegal`: `OP_VERIF` and `OP_VERNOTIF`. -/
def Opcode.alwaysIllegal (op : Opcode) : Bool := op.value == 101 || op.value == 102

/-- `isConditional`: `OP_IF`, `OP_NOTIF`, `OP_ELSE` and `OP_ENDIF`. -/
def Opcode.isConditional (op : Opcode) : Bool :=
  op.value == 99 || op.value == 100 || op.value == 103 || op.value == 104

/-- `checkMinimalDataPush`. -/
def ParsedOpcode.isMinimalPush (pop : ParsedOpcode) : Bool :=
  let opcode := pop.opcode.value
  match pop.data with
  | [] => opcode == 0
  | [b] =>
    if 1 ≤ b ∧ b ≤ 16 then opcode == 80 + b
    else if b = 0x81 then opcode == 79
    else opcode == 1
  | data =>
    if data.length ≤ 75 then opcode.toNat == data.length
    else if data.length ≤ 255 then opcode == 76
    else if data.length ≤ 65535 then opcode == 77
    else true

/-- The count of operations in `executeOpcode`, or the bound on pushed data. -/
def countOp (pop : Instruction) (vm : Vm) : Except ScriptErr Vm :=
  if 96 < pop.opcode.value.toNat then do
    rejectIf (MaxOpsPerScript < vm.numOps + 1) .tooManyOperations
    .ok { vm with numOps := vm.numOps + 1 }
  else do
    rejectIf (MaxScriptElementSize < pop.data.len) .elementTooBig
    .ok vm

/-- The end of `executeOpcode`: the opcode runs, unless it is in a branch that does not. -/
def runOpcode (cfg : EngineConfig) (pop : Instruction) (vm : Vm) : Except ScriptErr Vm :=
  if !vm.isBranchExecuting && !pop.opcode.isConditional then .ok vm
  else do
    rejectIf (cfg.flags.verifyMinimalData = true ∧ vm.isBranchExecuting = true ∧
      pop.opcode.value.toNat ≤ 78 ∧
      (pop.read vm.heap).isMinimalPush = false) .minimalData
    opfunc pop.opcode.value cfg pop vm

/-- `executeOpcode`: the limits, and then the function of the opcode. -/
def executeOpcode (cfg : EngineConfig) (pop : Instruction) (vm : Vm) : Except ScriptErr Vm := do
  rejectIf (pop.opcode.isDisabled = true) .opDisabled
  rejectIf (pop.opcode.alwaysIllegal = true) .reservedOpcode
  let vm ← countOp pop vm
  runOpcode cfg pop vm

/-! ## Scripts as slices -/

/-- The opcodes of a script from an offset on, with their data as slices of the script. -/
def viewsFrom (script : Slice) : ℕ → List ParsedOpcode → List Instruction
  | _, [] => []
  | i, pop :: pops =>
    let start := i + 1 + pop.lengthBytes.length
    let stop := start + pop.data.length
    ⟨pop.opcode, if pop.opcode.length = 1 then .nil else script.sub start stop⟩ ::
      viewsFrom script stop pops

/-- The instructions of a script, whose data are slices of it. -/
def parseViews (heap : Heap UInt8) (script : Slice) : Except ScriptErr (List Instruction) :=
  match parseScript (heap.read script) with
  | (pops, none) => .ok (viewsFrom script 0 pops)
  | (_, some e) => .error e

/-- `isPushOnly`: only opcodes that push. -/
def isPushOnly (pops : List Instruction) : Bool := pops.all fun pop => pop.opcode.value.toNat ≤ 96

/-- `IsPushOnlyScript`: a script that parses and only pushes. -/
def isPushOnlyScript (heap : Heap UInt8) (script : Slice) : Bool :=
  match parseViews heap script with
  | .error _ => false
  | .ok pops => isPushOnly pops

/-- `isAnyKindOfScriptHash`: pay-to-script-hash, tagged or not. -/
def isAnyKindOfScriptHash (pops : List Instruction) : Bool :=
  match pops.map fun pop => pop.opcode.value.toNat with
  | [169, 20, 135] => true
  | [tag, 169, 20, 135] => 186 ≤ tag && tag ≤ 189
  | _ => false

/-! ## Steps -/

/-- `CheckErrorCondition`: the scripts have ended, and the top is true. -/
def checkErrorCondition (cfg : EngineConfig) (finalScript : Bool) (vm : Vm) :
    Except ScriptErr Vm := do
  rejectIf (vm.scriptIdx < vm.scripts.length) .scriptUnfinished
  rejectIf (finalScript = true ∧ cfg.flags.verifyCleanStack = true ∧ vm.dstack.length ≠ 1)
    .cleanStack
  rejectIf (vm.dstack.length < 1) .emptyStack
  let (v, vm) ← vm.popBool
  rejectIf (v = false) .scriptFailed
  .ok vm

/-- The script whose hash was checked is parsed and runs on the rest of the stack that the first
script left. -/
def startRedeemScript (cfg : EngineConfig) (vm : Vm) : Except ScriptErr Vm := do
  let vm ← checkErrorCondition cfg false vm
  match vm.savedFirstStack with
  | [] => .error .panic
  | script :: rest => do
    let pops ← parseViews vm.heap script
    .ok { vm with scripts := vm.scripts ++ [pops], dstack := rest }

/-- The next script, with the two changes for scripts that pay to a script hash. -/
def nextScript (cfg : EngineConfig) (vm : Vm) : Except ScriptErr Vm :=
  if vm.scriptIdx = 0 ∧
    vm.bip16 = true then .ok { vm with scriptIdx := 1, savedFirstStack := vm.dstack }
  else if vm.scriptIdx = 1 ∧ vm.bip16 = true then startRedeemScript cfg { vm with scriptIdx := 2 }
  else .ok { vm with scriptIdx := vm.scriptIdx + 1 }

/-- A script without opcodes is passed over. -/
def skipEmpty (vm : Vm) : Vm :=
  if vm.scripts[vm.scriptIdx]? = some [] then { vm with scriptIdx := vm.scriptIdx + 1 } else vm

/-- The end of a script in `Step`. -/
def endScript (cfg : EngineConfig) (vm : Vm) : Except ScriptErr Vm := do
  rejectIf (vm.condStack ≠ []) .missingEndif
  let vm ← nextScript cfg { vm with astack := [], numOps := 0, scriptOff := 0 }
  .ok { skipEmpty vm with lastCodeSep := 0 }

/-- The opcode that is next, as `validPC` finds it. -/
def Vm.currentOpcode (vm : Vm) : Except ScriptErr Instruction :=
  match vm.scripts[vm.scriptIdx]? >>= fun script => script[vm.scriptOff]? with
  | none => .error .other
  | some pop => .ok pop

/-- What `Step` does after an opcode. The engine is done when there are no scripts left. -/
def advance (cfg : EngineConfig) (vm : Vm) : Except ScriptErr (Bool × Vm) := do
  rejectIf (maxStackSize < vm.dstack.length + vm.astack.length) .overflow
  let vm := { vm with scriptOff := vm.scriptOff + 1 }
  if ((vm.scripts[vm.scriptIdx]?).getD []).length ≤ vm.scriptOff then do
    let vm ← endScript cfg vm
    .ok (vm.scripts.length ≤ vm.scriptIdx, vm)
  else .ok (false, vm)

/-- `Step`: executes one opcode and goes on to the next script at the end. -/
def step (cfg : EngineConfig) (vm : Vm) : Except ScriptErr (Bool × Vm) := do
  let pop ← vm.currentOpcode
  let vm ← executeOpcode cfg pop vm
  advance cfg vm

/-- The loop of `Execute`, for a number of steps. -/
def executeLoop (cfg : EngineConfig) : ℕ → Vm → Except ScriptErr PUnit
  | 0, _ => .error .outOfFuel
  | fuel + 1, vm => do
    let (done, vm) ← step cfg vm
    if done then do
      let _ ← checkErrorCondition cfg true vm
      .ok ⟨⟩
    else executeLoop cfg fuel vm

/-! ## A new engine -/

/-- The check for stake opcodes, which scripts of later versions do not have. -/
def checkStakeOpCodes (cfg : EngineConfig) (scriptSig scriptPubKey : List UInt8) :
    Except ScriptErr PUnit :=
  if cfg.version = 0 then cfg.env.hasP2SHScriptSigStakeOpCodes scriptSig scriptPubKey else .ok ⟨⟩

/-- A script of a new engine. -/
def parseNew (heap : Heap UInt8) (script : Slice) : Except ScriptErr (List Instruction) := do
  rejectIf (maxScriptSize < script.len) .longScript
  parseViews heap script

/-- Whether the two scripts pay to a script hash, which the first must only push for. -/
def checkBip16 (cfg : EngineConfig) (first second : List Instruction) : Except ScriptErr Bool :=
  if cfg.flags.bip16 = true ∧ isAnyKindOfScriptHash second = true then do
    rejectIf (isPushOnly first = false) .nonPushOnly
    .ok true
  else .ok false

/-- `NewEngine`, for the input of the transaction at the index and the script of the output that it
spends. -/
def newEngine (cfg : EngineConfig) (heap : Heap UInt8) (scriptPubKey : Slice) :
    Except ScriptErr Vm :=
  match cfg.tx.signatureScripts[cfg.txIdx]? with
  | none => .error .invalidIndex
  | some scriptSig => do
    rejectIf (cfg.flags.verifyCleanStack = true ∧ cfg.flags.bip16 = false) .invalidFlags
    rejectIf (cfg.flags.verifySigPushOnly = true ∧ isPushOnlyScript heap scriptSig = false)
      .nonPushOnly
    checkStakeOpCodes cfg (heap.read scriptSig) (heap.read scriptPubKey)
    let first ← parseNew heap scriptSig
    let second ← parseNew heap scriptPubKey
    let bip16 ← checkBip16 cfg first second
    .ok { heap, scripts := [first, second], scriptIdx := if scriptSig.len = 0 then 1 else 0, bip16 }

/-! ## An example -/

/-- A suite in which a signature is the key that it verifies under. -/
def sampleSuite : Suite where
  PublicKey := List UInt8
  Signature := List UInt8
  parsePubKey key := if key = [] then none else some key
  parseSignature sig := if sig = [] then none else some sig
  verify key _ sig := key == sig

/-- Hash functions that give back their input. -/
def sampleEngineEnv : EngineEnv where
  secp256k1 := { sampleSuite with parseDERSignature := sampleSuite.parseSignature }
  edwards := sampleSuite
  secSchnorr := sampleSuite
  bliss := sampleSuite
  lms := sampleSuite
  ripemd160 := id
  sha1 := id
  hashB := id
  signatureHash _ _ _ _ := []
  hasP2SHScriptSigStakeOpCodes _ _ := .ok ⟨⟩
  growth _ n := n

/-- An engine for a transaction with one input. -/
def sampleConfig : EngineConfig where
  env := sampleEngineEnv
  version := 0
  flags := {}
  tx := ⟨{ version := 1, txIn := [default], txOut := [], lockTime := 0, expiry := 0 }, [.nil], []⟩
  txIdx := 0

end Hcashd.Script
