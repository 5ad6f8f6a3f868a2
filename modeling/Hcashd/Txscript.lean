import Hcashd.Errors
import Hcashd.Wire

/-!
# The script package

What the consensus code asks of `txscript`. Parsing a script and running the script engine are not
modelled: the answers are functions of the script, and every result holds whatever they are. The
functions of `txscript` that only combine such answers are defined as in the source.
-/

namespace Hcashd

/-- `ScriptClass`: the kinds of scripts. -/
inductive ScriptClass
  | nonStandard | pubKey | pubKeyHash | scriptHash | multiSig | nullData
  | stakeSubmission | stakeGen | stakeRevocation | stakeSubChange
  | pubkeyAlt | pubkeyHashAlt
  deriving DecidableEq, Repr

/-- The version of scripts that are understood. -/
def DefaultScriptVersion : ℕ := 0

/-- The answers of the script package. -/
structure Txscript where
  -- `parseScript` reports no error.
  parses : List UInt8 → Bool
  -- `typeOfScript` of a script that parses, and of the rest of it without its stake opcodes.
  typeOfScript : List UInt8 → ScriptClass
  typeOfSubscript : List UInt8 → ScriptClass
  -- The first opcode is `OP_RETURN`; some opcode is one of the four stake tags.
  isReturn : List UInt8 → Bool
  hasStakeOpCode : List UInt8 → Bool
  -- The bytes pushed by the second opcode.
  pushedData : List UInt8 → List UInt8
  -- The addresses of a script, each as its `ScriptAddress`.
  scriptAddresses : List UInt8 → List (List UInt8)
  getSigOpCount : List UInt8 → ℕ
  getPreciseSigOpCount : List UInt8 → List UInt8 → ℕ
  -- The engine accepts the input at an index, which spends an output of a script version and
  -- script.
  execute : MsgTx → ℕ → ℕ → List UInt8 → Bool

namespace Txscript

variable (s : Txscript)

/-- `GetScriptClass`: the class of a script that parses. -/
def getScriptClass (version : ℕ) (script : List UInt8) : ScriptClass :=
  if version ≠ DefaultScriptVersion then .nonStandard
  else if s.parses script then s.typeOfScript script else .nonStandard

/-- Whether a script is one of the staking system. -/
def isStakeOutput (pkScript : List UInt8) : Bool :=
  s.parses pkScript && (match s.typeOfScript pkScript with
    | .stakeSubmission | .stakeGen | .stakeRevocation | .stakeSubChange => true
    | _ => false)

/-- `GetStakeOutSubclass`: the class of a script without its tag. -/
def getStakeOutSubclass (pkScript : List UInt8) : Except Err ScriptClass :=
  if s.isStakeOutput pkScript then .ok (s.typeOfSubscript pkScript) else .error .other

/-- `ContainsStakeOpCodes`: a script with an opcode of the staking system. -/
def containsStakeOpCodes (pkScript : List UInt8) : Except Err Bool :=
  if s.parses pkScript then .ok (s.hasStakeOpCode pkScript) else .error .other

/-- `IsUnspendable`: no amount, no script or a return. -/
def isUnspendable (amount : ℤ) (pkScript : List UInt8) : Bool :=
  amount == 0 || !s.parses pkScript || s.isReturn pkScript

/-- `IsPayToScriptHash`: the class of a script hash. -/
def isPayToScriptHash (script : List UInt8) : Bool :=
  s.parses script && s.typeOfScript script == .scriptHash

/-- `GetNullDataContent`: the data of a script that only carries data. -/
def getNullDataContent (version : ℕ) (pkScript : List UInt8) : Except Err (List UInt8) :=
  if s.getScriptClass version pkScript ≠ .nullData then .error .other
  else .ok (s.pushedData pkScript)

/-- `ExtractPkScriptAddrs`: the class and the addresses of a script. -/
def extractPkScriptAddrs (version : ℕ) (pkScript : List UInt8) :
    Except Err (ScriptClass × List (List UInt8)) :=
  if version ≠ DefaultScriptVersion ∨ s.parses pkScript = false then .error .other
  else .ok (s.typeOfScript pkScript, s.scriptAddresses pkScript)

end Txscript

end Hcashd
