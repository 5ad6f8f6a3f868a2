import Hcashd.Lib.Avoids
import Hcashd.Script.Parse
import Hcashd.Txscript

/-!
# Classes of scripts

`txscript/standard.go`: the class of a script, from its instructions, and the addresses that a
script pays to. The consensus code takes these answers as they are (`Txscript`); here they are
computed. A script with a stake tag is the tag before a script that pays to the hash of a key or of
a script, and nothing else (`exists_subscript_of_stake`), so that it always has an address
(`extractPkScriptAddrs_of_stake`).
-/

namespace Hcashd.Script

open Lib List

-- The opcodes of `opcode.go` that scripts are told apart by.
def OP_DATA_1 : UInt8 := 1
def OP_DATA_20 : UInt8 := 20
def OP_PUSHDATA4 : UInt8 := 78
def OP_1 : UInt8 := 81
def OP_16 : UInt8 := 96
def OP_RETURN : UInt8 := 106
def OP_DUP : UInt8 := 118
def OP_EQUAL : UInt8 := 135
def OP_EQUALVERIFY : UInt8 := 136
def OP_HASH160 : UInt8 := 169
def OP_CHECKSIG : UInt8 := 172
def OP_CHECKMULTISIG : UInt8 := 174
def OP_SSTX : UInt8 := 186
def OP_SSGEN : UInt8 := 187
def OP_SSRTX : UInt8 := 188
def OP_SSTXCHANGE : UInt8 := 189
def OP_CHECKSIGALT : UInt8 := 190

-- The signature suites of `chainec`, `bliss` and `lms`.
def ECTypeSecp256k1 : ℤ := 0
def ECTypeEdwards : ℤ := 1
def ECTypeSecSchnorr : ℤ := 2
def BSTypeBliss : ℤ := 4
def LMSTypeLMS : ℤ := 5

/-- How much data a script may carry. -/
def MaxDataCarrierSize : ℕ := 256

/-- The values of the opcodes of a script. -/
def values (pops : List ParsedOpcode) : List UInt8 := pops.map fun pop => pop.opcode.value

/-- `isPubkey`: a key and a check of its signature. -/
def isPubkey : List ParsedOpcode → Bool
  | [key, op] => (key.data.length == 33 || key.data.length == 65) && op.opcode.value == OP_CHECKSIG
  | _ => false

/-- `isOneByteMaxDataPush`: pushes of up to sixteen bytes count as well. -/
def isOneByteMaxDataPush (po : ParsedOpcode) : Bool :=
  let value := if po.opcode.value < OP_1 then po.opcode.value + 80 else po.opcode.value
  decide (OP_1 ≤ value) && decide (value ≤ OP_16) || value == OP_DATA_1

/-- `isPubkeyAlt`: the same for another suite. -/
def isPubkeyAlt : List ParsedOpcode → Bool
  | [key, type, op] =>
    decide (key.data.length < 512) && isOneByteMaxDataPush type && op.opcode.value == OP_CHECKSIGALT
  | _ => false

/-- `isPubkeyHash`: the hash of a key and a check. -/
def isPubkeyHash (pops : List ParsedOpcode) : Bool :=
  values pops == [OP_DUP, OP_HASH160, OP_DATA_20, OP_EQUALVERIFY, OP_CHECKSIG]

/-- `isPubkeyHashAlt`: the same for another suite. -/
def isPubkeyHashAlt : List ParsedOpcode → Bool
  | [dup, hash160, hash, equalVerify, type, op] =>
    values [dup, hash160, hash, equalVerify] == [OP_DUP, OP_HASH160, OP_DATA_20, OP_EQUALVERIFY] &&
      isOneByteMaxDataPush type && op.opcode.value == OP_CHECKSIGALT
  | _ => false

/-- `isScriptHash`: the hash of a script. -/
def isScriptHash (pops : List ParsedOpcode) : Bool :=
  values pops == [OP_HASH160, OP_DATA_20, OP_EQUAL]

/-- `isSmallInt`: an opcode that pushes 0 to 16. -/
def isSmallInt (op : Opcode) : Bool :=
  op.value == 0 || decide (OP_1 ≤ op.value) && decide (op.value ≤ OP_16)

/-- `asSmallInt`: the number that it pushes. -/
def asSmallInt (op : Opcode) : ℕ := if op.value = 0 then 0 else (op.value - 80).toNat

/-- `isMultiSig`: keys between two small numbers. -/
def isMultiSig (pops : List ParsedOpcode) : Bool := match pops.head?, pops.reverse with
  | some first, last :: count :: _ =>
    decide (4 ≤ pops.length) && isSmallInt first.opcode && isSmallInt count.opcode &&
      last.opcode.value == OP_CHECKMULTISIG && pops.length - 3 == asSmallInt count.opcode &&
      ((pops.drop 1).take (pops.length - 3)).all fun key =>
        key.data.length == 33 || key.data.length == 65
  | _, _ => false

/-- `isNullData`: data that cannot be spent. -/
def isNullData : List ParsedOpcode → Bool
  | [ret] => ret.opcode.value == OP_RETURN
  | [ret, push] => ret.opcode.value == OP_RETURN && decide (push.opcode.value ≤ OP_PUSHDATA4) &&
    decide (push.data.length ≤ MaxDataCarrierSize)
  | _ => false

/-- A stake tag before a script that pays to the hash of a key or of a script. -/
def isTagged (tag : UInt8) (pops : List ParsedOpcode) : Bool :=
  values pops == [tag, OP_DUP, OP_HASH160, OP_DATA_20, OP_EQUALVERIFY, OP_CHECKSIG] ||
    values pops == [tag, OP_HASH160, OP_DATA_20, OP_EQUAL]

/-- `isStakeSubmission`: the output of a ticket. -/
def isStakeSubmission : List ParsedOpcode → Bool := isTagged OP_SSTX

/-- `isStakeGen`: an output of a vote. -/
def isStakeGen : List ParsedOpcode → Bool := isTagged OP_SSGEN

/-- `isStakeRevocation`: an output of a revocation. -/
def isStakeRevocation : List ParsedOpcode → Bool := isTagged OP_SSRTX

/-- `isSStxChange`: the change of a ticket purchase. -/
def isSStxChange : List ParsedOpcode → Bool := isTagged OP_SSTXCHANGE

/-- `typeOfScript`: the first class that fits. -/
def typeOfScript (pops : List ParsedOpcode) : ScriptClass :=
  if isPubkey pops then .pubKey
  else if isPubkeyAlt pops then .pubkeyAlt
  else if isPubkeyHash pops then .pubKeyHash
  else if isPubkeyHashAlt pops then .pubkeyHashAlt
  else if isScriptHash pops then .scriptHash
  else if isMultiSig pops then .multiSig
  else if isNullData pops then .nullData
  else if isStakeSubmission pops then .stakeSubmission
  else if isStakeGen pops then .stakeGen
  else if isStakeRevocation pops then .stakeRevocation
  else if isSStxChange pops then .stakeSubChange
  else .nonStandard

/-- `parseScript`, where the opcodes before an error are not looked at. -/
def parsed (script : List UInt8) : Except ScriptErr (List ParsedOpcode) :=
  match parseScript script with
  | (pops, none) => .ok pops
  | (_, some e) => .error e

/-- `GetScriptClass`: the class of a script that parses. -/
def getScriptClass (version : ℕ) (script : List UInt8) : ScriptClass :=
  if version ≠ DefaultScriptVersion then .nonStandard
  else match parsed script with
    | .ok pops => typeOfScript pops
    | .error _ => .nonStandard

/-- Whether a class is one of the staking system. -/
def isStakeClass : ScriptClass → Bool
  | .stakeSubmission | .stakeGen | .stakeRevocation | .stakeSubChange => true
  | _ => false

/-- Whether an opcode is one of the staking system. -/
def isStakeTag (value : UInt8) : Bool := decide (186 ≤ value) && decide (value ≤ 189)

/-- `GetStakeOutSubclass`: the class of a script without its tag. -/
def getStakeOutSubclass (pkScript : List UInt8) : Except ScriptErr ScriptClass := do
  let pkPops ← parsed pkScript
  rejectIf (isStakeClass (typeOfScript pkPops) = false) .other
  pure (typeOfScript (pkPops.filter fun pop => !isStakeTag pop.opcode.value))

/-! ## Addresses -/

/-- The addresses of `hcashutil`, each as its `ScriptAddress`: of the hash of a key for a signature
suite, of the hash of a script, of a key, and of a key for another suite, where there is one. A hash
of twenty bytes has one. -/
structure Hcashutil where
  newAddressPubKeyHash : List UInt8 → (suite : ℤ) → Option (List UInt8)
  newAddressScriptHashFromHash : List UInt8 → Option (List UInt8)
  newAddressSecpPubKeyCompressed : List UInt8 → Option (List UInt8)
  newAddressAltPubKey : (suite : ℤ) → List UInt8 → Option (List UInt8)
  isSome_newAddressPubKeyHash :
    ∀ hash, hash.length = 20 → (newAddressPubKeyHash hash ECTypeSecp256k1).isSome
  isSome_newAddressScriptHashFromHash :
    ∀ hash, hash.length = 20 → (newAddressScriptHashFromHash hash).isSome

/-- `extractOneBytePush`: the number that an opcode pushes. -/
def extractOneBytePush (po : ParsedOpcode) : Except ScriptErr ℤ :=
  if isOneByteMaxDataPush po = false then .ok (-1)
  else if OP_1 ≤ po.opcode.value ∧ po.opcode.value ≤ OP_16 then .ok (po.opcode.value - 80).toNat
  else do
    let byte ← index .panic po.data 0
    pure (byte.toNat : ℤ)

/-- The suites that `ExtractPkScriptAltSigType` knows. -/
def altSuites : List ℤ := [ECTypeEdwards, ECTypeSecSchnorr, BSTypeBliss, LMSTypeLMS]

/-- `ExtractPkScriptAltSigType`, with the value that it returns beside an error, which the callers
go on with. -/
def extractPkScriptAltSigType (pkScript : List UInt8) : Except ScriptErr ℤ :=
  match parsed pkScript with
  | .error _ => .ok 0
  | .ok pops =>
    if isPubkeyAlt pops = false ∧ isPubkeyHashAlt pops = false then .ok (-1)
    else do
      let po ← index .panic pops (if isPubkeyHashAlt pops then 4 else 1)
      let valInt ← extractOneBytePush po
      pure (if valInt < 0 then 0 else if valInt ∈ altSuites then valInt else -1)

/-- What `ExtractPkScriptAddrs` returns. -/
structure Extracted where
  scriptClass : ScriptClass
  addrs : List (List UInt8)
  requiredSigs : ℕ
  deriving DecidableEq, Repr

/-- The addresses and the number of signatures of a script of a class. For a script with a stake tag
they are those of the script after the tag. -/
def addrsOfClass (u : Hcashutil) (sub : Except ScriptErr Extracted) (pkScript : List UInt8)
    (pops : List ParsedOpcode) : ScriptClass → Except ScriptErr (List (List UInt8) × ℕ)
  | .pubKeyHash => do
    let hash ← index .panic pops 2
    pure ((u.newAddressPubKeyHash hash.data ECTypeSecp256k1).toList, 1)
  | .pubkeyHashAlt => do
    let suite ← extractPkScriptAltSigType pkScript
    let hash ← index .panic pops 2
    pure ((u.newAddressPubKeyHash hash.data suite).toList, 1)
  | .pubKey => do
    let key ← index .panic pops 0
    pure ((u.newAddressSecpPubKeyCompressed key.data).toList, 1)
  | .pubkeyAlt => do
    let suite ← extractPkScriptAltSigType pkScript
    let key ← index .panic pops 0
    pure (if suite ∈ altSuites then (u.newAddressAltPubKey suite key.data).toList else [], 1)
  | .stakeSubmission | .stakeGen | .stakeRevocation | .stakeSubChange => match sub with
    | .ok r => .ok (r.addrs, r.requiredSigs)
    | .error .panic => .error .panic
    | .error _ => .ok ([], 0)
  | .scriptHash => do
    let hash ← index .panic pops 1
    pure ((u.newAddressScriptHashFromHash hash.data).toList, 1)
  | .multiSig => do
    let first ← index .panic pops 0
    let count ← index .panic pops (pops.length - 2)
    let keys ← (range (asSmallInt count.opcode)).mapM fun i => index .panic pops (i + 1)
    pure (keys.filterMap fun key =>
      u.newAddressSecpPubKeyCompressed key.data, asSmallInt first.opcode)
  | .nullData | .nonStandard => .ok ([], 0)

/-- The body of `ExtractPkScriptAddrs`, given what it returns for the script without its first
byte. -/
def extractAddrs (u : Hcashutil) (version : ℕ) (sub : Except ScriptErr Extracted)
    (pkScript : List UInt8) :
    Except ScriptErr Extracted := do
  rejectIf (version ≠ DefaultScriptVersion) .other
  let pops ← parsed pkScript
  let (addrs, requiredSigs) ← addrsOfClass u sub pkScript pops (typeOfScript pops)
  pure ⟨typeOfScript pops, addrs, requiredSigs⟩

/-- `ExtractPkScriptAddrs`. `getStakeOutSubscript` cuts off the first byte, which an empty script
does not have. -/
def extractPkScriptAddrs (u : Hcashutil) (version : ℕ) : List UInt8 → Except ScriptErr Extracted
  | [] => extractAddrs u version (.error .panic) []
  | b :: pkScript =>
    extractAddrs u version (extractPkScriptAddrs u version pkScript) (b :: pkScript)

/-- The answers of the script package, with the computed classes and addresses in place of those
that are given. -/
def Hcashutil.txscript (u : Hcashutil) (other : Txscript) : Txscript :=
  { other with
    parses := fun script => (parseScript script).2.isNone
    typeOfScript := fun script => typeOfScript (parseScript script).1
    typeOfSubscript := fun script =>
      typeOfScript ((parseScript script).1.filter fun pop => !isStakeTag pop.opcode.value)
    scriptAddresses := fun script => match extractPkScriptAddrs u DefaultScriptVersion script with
      | .ok r => r.addrs
      | .error _ => [] }

/-- A script that parses. -/
theorem parsed_eq_ok {script : List UInt8} {pops : List ParsedOpcode} :
    parsed script = .ok pops ↔ parseScript script = (pops, none) := by
  unfold parsed
  rcases parseScript script with ⟨pops', _ | e⟩ <;> simp

theorem getScriptClass_txscript (u : Hcashutil) (other : Txscript) (version : ℕ)
    (script : List UInt8) :
    (u.txscript other).getScriptClass version script = getScriptClass version script := by
  by_cases hversion : version ≠ DefaultScriptVersion
  · rw [Txscript.getScriptClass, getScriptClass, if_pos hversion, if_pos hversion]
  · rw [Txscript.getScriptClass, getScriptClass, if_neg hversion, if_neg hversion]
    show (if (parseScript script).2.isNone = true then typeOfScript (parseScript script).1
        else .nonStandard) = _
    cases herror : (parseScript script).2 with
    | none => rw [parsed_eq_ok.2 (Prod.ext rfl herror), Option.isNone_none, if_pos rfl]
    | some e =>
      rw [parsed, show parseScript script =
        ((parseScript script).1, some e) from Prod.ext rfl herror,
        Option.isNone_some, if_neg Bool.false_ne_true]

/-! ## Scripts of fixed instructions -/

section Fixed

variable {instrAt : ℕ → UInt8 → UInt8} {i : ℕ} {script data rest : List UInt8}
  {pops : List ParsedOpcode} {push tag : UInt8}

/-- Parsed instructions are valid. -/
theorem Parses.valid (h : Parses instrAt i script pops) :
    ∀ pop ∈ pops, pop.Valid ∧ pop.opcode = opcodeArray pop.opcode.value := by
  induction h with
  | nil i => simp
  | cons hop hvalid _ _ ih =>
    refine forall_mem_cons.2 ⟨⟨hvalid, ?_⟩, ih⟩
    rw [hop]
    rfl

/-- The length of a script of fixed instructions. -/
theorem Parses.length_eq (h : Parses instrAt i script pops)
    (hfixed : ∀ value ∈ values pops, 0 < opcodeLength value) :
    (script.length : ℤ) = ((values pops).map opcodeLength).sum := by
  induction h with
  | nil i => rfl
  | @cons i b rest left pop pops hop hvalid hrest _ ih =>
    have hlength : pop.opcode.length = opcodeLength pop.opcode.value := by rw [hop]; rfl
    rw [values, map_cons, forall_mem_cons, ← hlength] at hfixed
    have hsize : (pop.data.length : ℤ) + 1 = pop.opcode.length := by
      rcases (show 1 ≤ pop.opcode.length from hfixed.1).lt_or_eq with hmany | hone
      · exact hvalid.fixed hmany
      · rw [hvalid.one hone.symm, ← hone]
        rfl
    rw [values, map_cons, map_cons, sum_cons, ← hlength, ← hsize, length_cons, hrest,
      ParsedOpcode.lengthBytes_of_pos hfixed.1, nil_append, length_append]
    push_cast
    rw [ih hfixed.2, values]
    ring

/-- A parse without small numbers has no substitutions. -/
theorem Parses.plain (hinstr : ∀ j b, instrAt j b ≠ b → OP_1 ≤ instrAt j b ∧ instrAt j b ≤ OP_16)
    (h : Parses instrAt i script pops)
    (hlarge : ∀ value ∈ values pops, ¬ (OP_1 ≤ value ∧ value ≤ OP_16)) (j : ℕ) :
    Parses (fun _ b => b) j script pops := by
  induction h generalizing j with
  | nil i => exact .nil j
  | @cons i b rest left pop pops hop hvalid hrest _ ih =>
    rw [values, map_cons, forall_mem_cons] at hlarge
    have hsame : instrAt i b = b := by
      by_contra hne
      exact hlarge.1 (by rw [hop]; exact hinstr i b hne)
    rw [hsame] at hop
    exact .cons hop hvalid hrest (ih hlarge.2 _)

theorem altInstr_ne (j : ℕ) (b : UInt8) (h : altInstr j b ≠ b) :
    OP_1 ≤ altInstr j b ∧ altInstr j b ≤ OP_16 := by
  unfold altInstr at h ⊢
  split_ifs at h ⊢ with hsmall
  · obtain ⟨-, hlo, hhi⟩ := hsmall
    revert b
    decide +kernel
  · exact absurd rfl h

/-- The two ways in which a script is parsed. -/
theorem parses_of_parseScript (h : parseScript script = (pops, none)) :
    Parses altInstr 0 script pops ∨ Parses (fun _ b => b) 0 script pops := by
  unfold parseScript at h
  split_ifs at h
  · exact .inl (parses_of_parseLoop h)
  · exact .inr (parses_of_parseLoop h)

/-- A script without small numbers is parsed as the script after its first instruction, where that
is one byte long and the rest does not have the length of the scripts with a parser of their own. -/
theorem parseScript_tail (h : parseScript script = (pops, none))
    (hvalues : values pops = tag :: rest) (htag : opcodeLength tag = 1)
    (hlarge : ∀ value ∈ tag :: rest, 0 < opcodeLength value ∧ ¬ (OP_1 ≤ value ∧ value ≤ OP_16))
    (hlength : (rest.map opcodeLength).sum ≠ 26) :
    ∃ left pops', script = tag :: left ∧ parseScript left = (pops', none) ∧
    values pops' = rest := by
  have hloop : Parses (fun _ b => b) 0 script pops := (parses_of_parseScript h).elim
      (fun halt =>
        halt.plain altInstr_ne (fun value hvalue => (hlarge value (hvalues ▸ hvalue)).2) 0) id
  obtain _ | @⟨_, b, _, left, pop, pops', hop, hvalid, rfl, hleft⟩ := hloop
  · cases hvalues
  obtain ⟨hvalue, rfl⟩ := cons.inj hvalues
  obtain rfl : b = tag := (congrArg Opcode.value hop).symm.trans hvalue
  have hone : pop.opcode.length = 1 := by
    rw [hop]
    exact htag
  have hbytes : pop.lengthBytes ++ pop.data ++ left = left := by
    rw [ParsedOpcode.lengthBytes_of_pos (by omega), hvalid.one hone]
    rfl
  have hlarge' := fun value hvalue => (hlarge value (mem_cons_of_mem _ hvalue))
  refine ⟨left, pops', by rw [hbytes], ?_, rfl⟩
  have hsum := hleft.length_eq (fun value hvalue => (hlarge' value hvalue).1)
  have hne : left.length ≠ 26 := fun heq => hlength (by rw [← values, ← hsum, heq]; rfl)
  rw [parseScript, if_neg hne, parseScriptTemplate]
  exact (hleft.plain (fun _ _ hne => absurd rfl hne) (fun value hvalue => (hlarge' value hvalue).2)
    0).parseLoop_eq le_rfl

/-- The data of an instruction have its length. -/
theorem length_data_of_parseScript (h : parseScript script = (pops, none)) {pop : ParsedOpcode}
    (hpop : pop ∈ pops) (hmany : 1 < opcodeLength pop.opcode.value) :
    (pop.data.length : ℤ) + 1 = opcodeLength pop.opcode.value := by
  obtain ⟨hvalid, hop⟩ : pop.Valid ∧ pop.opcode = opcodeArray pop.opcode.value :=
    (parses_of_parseScript h).elim (fun h => h.valid pop hpop) (fun h => h.valid pop hpop)
  have hlength : pop.opcode.length = opcodeLength pop.opcode.value := congrArg Opcode.length hop
  rw [← hlength] at hmany ⊢
  exact hvalid.fixed hmany

/-! ## Scripts with a stake tag -/

theorem isStakeClass_of_ite {b : Bool} {c d : ScriptClass} (hc : isStakeClass c = false)
    (h : isStakeClass (if b then c else d) = true) : isStakeClass d = true := by
  cases b with
  | false => exact h
  | true => exact absurd (hc.symm.trans h) Bool.false_ne_true

/-- A stake script begins with a stake tag. -/
theorem exists_isTagged_of_isStakeClass (h : isStakeClass (typeOfScript pops) = true) :
    ∃ tag, isStakeTag tag = true ∧ isTagged tag pops = true := by
  unfold typeOfScript at h
  replace h :=
    isStakeClass_of_ite rfl
      (isStakeClass_of_ite rfl (isStakeClass_of_ite rfl (isStakeClass_of_ite rfl h)))
  replace h := isStakeClass_of_ite rfl (isStakeClass_of_ite rfl (isStakeClass_of_ite rfl h))
  by_cases hsubmission : isStakeSubmission pops = true
  · exact ⟨OP_SSTX, rfl, hsubmission⟩
  by_cases hgen : isStakeGen pops = true
  · exact ⟨OP_SSGEN, rfl, hgen⟩
  by_cases hrevocation : isStakeRevocation pops = true
  · exact ⟨OP_SSRTX, rfl, hrevocation⟩
  by_cases hchange : isSStxChange pops = true
  · exact ⟨OP_SSTXCHANGE, rfl, hchange⟩
  rw [if_neg hsubmission, if_neg hgen, if_neg hrevocation, if_neg hchange] at h
  exact absurd h Bool.false_ne_true

theorem values_eq_cons {value : UInt8} :
    values pops = value :: rest ↔ ∃ pop pops', pops = pop :: pops' ∧ pop.opcode.value = value ∧
    values pops' = rest := by
  cases pops <;> simp [values]

theorem values_eq_nil : values pops = [] ↔ pops = [] := map_eq_nil_iff

/-- Scripts that pay to a key hash. -/
theorem typeOfScript_pubKeyHash
    (h : values pops = [OP_DUP, OP_HASH160, OP_DATA_20, OP_EQUALVERIFY, OP_CHECKSIG]) :
    typeOfScript pops = .pubKeyHash ∧ ∃ hash, pops[2]? = some hash ∧
    hash.opcode.value = OP_DATA_20 := by
  have hkind : isPubkeyHash pops = true := by rw [isPubkeyHash, h]; rfl
  simp only [values_eq_cons, values_eq_nil] at h
  obtain ⟨dup, _, rfl, -, hash160, _, rfl, -, hash, _, rfl, hvalue, equalVerify, _, rfl, -, op, _,
    rfl, -, rfl⟩ := h
  refine ⟨?_, hash, rfl, hvalue⟩
  rw [typeOfScript, if_neg (by simp [isPubkey]), if_neg (by simp [isPubkeyAlt]), if_pos hkind]

/-- Scripts that pay to a script hash. -/
theorem typeOfScript_scriptHash (h : values pops = [OP_HASH160, OP_DATA_20, OP_EQUAL]) :
    typeOfScript pops = .scriptHash ∧ ∃ hash, pops[1]? = some hash ∧
    hash.opcode.value = OP_DATA_20 := by
  have hkind : isScriptHash pops = true := by rw [isScriptHash, h]; rfl
  simp only [values_eq_cons, values_eq_nil] at h
  obtain ⟨hash160, _, rfl, -, hash, _, rfl, hvalue, op, _, rfl, hlast, rfl⟩ := h
  refine ⟨?_, hash, rfl, hvalue⟩
  rw [typeOfScript, if_neg (by simp [isPubkey]),
    if_neg (by simp [isPubkeyAlt, hlast, OP_EQUAL, OP_CHECKSIGALT]),
    if_neg (by simp [isPubkeyHash, values]), if_neg (by simp [isPubkeyHashAlt]), if_pos hkind]

theorem isStakeTag_spec :
    ∀ tag, isStakeTag tag = true → opcodeLength tag = 1 ∧ ¬ (OP_1 ≤ tag ∧ tag ≤ OP_16) := by
  decide +kernel

/-- A stake script is a tag and a script of its own. -/
theorem exists_subscript_of_stake (h : parseScript script = (pops, none))
    (hstake : isStakeClass (typeOfScript pops) = true) :
    ∃ tag left pops', isStakeTag tag = true ∧ script = tag :: left ∧
    values pops = tag :: values pops' ∧
      parseScript left = (pops', none) ∧
      (values pops' = [OP_DUP, OP_HASH160, OP_DATA_20, OP_EQUALVERIFY, OP_CHECKSIG] ∨
        values pops' = [OP_HASH160, OP_DATA_20, OP_EQUAL]) := by
  obtain ⟨tag, htag, htagged⟩ := exists_isTagged_of_isStakeClass hstake
  rw [isTagged, Bool.or_eq_true, beq_iff_eq, beq_iff_eq] at htagged
  have hone := isStakeTag_spec tag htag
  have hfirst : 0 < opcodeLength tag ∧ ¬ (OP_1 ≤ tag ∧ tag ≤ OP_16) :=
    ⟨by rw [hone.1]; decide, hone.2⟩
  obtain ⟨rest, hvalues, hcases⟩ : ∃ rest, values pops = tag :: rest ∧
      (rest = [OP_DUP, OP_HASH160, OP_DATA_20, OP_EQUALVERIFY, OP_CHECKSIG] ∨
        rest = [OP_HASH160, OP_DATA_20, OP_EQUAL]) :=
    htagged.elim (⟨_, ·, .inl rfl⟩) (⟨_, ·, .inr rfl⟩)
  have hrest : (∀ value ∈ rest, 0 < opcodeLength value ∧ ¬ (OP_1 ≤ value ∧ value ≤ OP_16)) ∧
      (rest.map opcodeLength).sum ≠ 26 := by
    rcases hcases with rfl | rfl <;> decide +kernel
  obtain ⟨left, pops', rfl, hleft, rfl⟩ := parseScript_tail h hvalues hone.1
    (forall_mem_cons.2 ⟨hfirst, hrest.1⟩) hrest.2
  exact ⟨tag, left, pops', htag, rfl, hvalues, hleft, hcases⟩

/-- The address of a hash. -/
theorem extractPkScriptAddrs_of_hash (u : Hcashutil) (h : parseScript script = (pops, none))
    (hvalues : values pops = [OP_DUP, OP_HASH160, OP_DATA_20, OP_EQUALVERIFY, OP_CHECKSIG] ∨
      values pops = [OP_HASH160, OP_DATA_20, OP_EQUAL]) :
    (typeOfScript pops = .pubKeyHash ∨ typeOfScript pops = .scriptHash) ∧
      ∃ addr, extractPkScriptAddrs u DefaultScriptVersion script =
        .ok ⟨typeOfScript pops, [addr], 1⟩ := by
  obtain ⟨sub, hsub⟩ : ∃ sub, extractPkScriptAddrs u DefaultScriptVersion script =
      extractAddrs u DefaultScriptVersion sub script := by
    cases script with
    | nil | cons => exact ⟨_, rfl⟩
  rw [hsub, extractAddrs, rejectIf_bind (fun hne => hne rfl), parsed_eq_ok.2 h, ok_bind]
  have hlength : ∀ hash ∈ pops, hash.opcode.value = OP_DATA_20 → hash.data.length = 20 := by
    intro hash hmem hvalue
    have hdata := length_data_of_parseScript h hmem (by rw [hvalue]; decide)
    rw [hvalue, show opcodeLength OP_DATA_20 = 21 by decide] at hdata
    omega
  rcases hvalues with hvalues | hvalues
  · obtain ⟨hclass, hash, hhash, hvalue⟩ := typeOfScript_pubKeyHash hvalues
    have hsome :=
      u.isSome_newAddressPubKeyHash hash.data (hlength hash (mem_of_getElem? hhash) hvalue)
    obtain ⟨addr, haddr⟩ := Option.isSome_iff_exists.1 hsome
    refine ⟨.inl hclass, addr, ?_⟩
    rw [hclass, addrsOfClass, index_eq_ok.2 hhash, ok_bind, haddr]
    rfl
  · obtain ⟨hclass, hash, hhash, hvalue⟩ := typeOfScript_scriptHash hvalues
    have hsome :=
      u.isSome_newAddressScriptHashFromHash hash.data (hlength hash (mem_of_getElem? hhash) hvalue)
    obtain ⟨addr, haddr⟩ := Option.isSome_iff_exists.1 hsome
    refine ⟨.inr hclass, addr, ?_⟩
    rw [hclass, addrsOfClass, index_eq_ok.2 hhash, ok_bind, haddr]
    rfl

/-- A script of a stake class has one address, that of the script after its tag. -/
theorem extractPkScriptAddrs_of_stake (u : Hcashutil) (h : parseScript script = (pops, none))
    (hstake : isStakeClass (typeOfScript pops) = true) :
    ∃ addr, extractPkScriptAddrs u DefaultScriptVersion script =
      .ok ⟨typeOfScript pops, [addr], 1⟩ := by
  obtain ⟨tag, left, pops', -, rfl, -, hleft, hvalues⟩ := exists_subscript_of_stake h hstake
  obtain ⟨-, addr, haddr⟩ := extractPkScriptAddrs_of_hash u hleft hvalues
  refine ⟨addr, ?_⟩
  rw [extractPkScriptAddrs, extractAddrs, rejectIf_bind (fun hne => hne rfl), parsed_eq_ok.2 h,
    ok_bind, haddr]
  cases hclass : typeOfScript pops <;> rw [hclass] at hstake <;> first | rfl | cases hstake

/-- The class of what follows the tag of a script of a stake class. -/
theorem getStakeOutSubclass_of_stake (h : parseScript script = (pops, none))
    (hstake : isStakeClass (typeOfScript pops) = true) :
    ∃ scriptClass, getStakeOutSubclass script = .ok scriptClass ∧
      (scriptClass = .pubKeyHash ∨ scriptClass = .scriptHash) := by
  obtain ⟨tag, left, pops', htag, rfl, hpops, hleft, hvalues⟩ := exists_subscript_of_stake h hstake
  obtain ⟨pop, pops'', rfl, hvalue, hrest⟩ := values_eq_cons.1 hpops
  have hfilter :
      values ((pop :: pops'').filter fun pop => !isStakeTag pop.opcode.value) = values pops' := by
    have hplain : ∀ v ∈ values pops', (!isStakeTag v) = true := by
      rcases hvalues with hvalues | hvalues <;> rw [hvalues] <;> decide +kernel
    have hkeep : pops''.filter (fun pop => !isStakeTag pop.opcode.value) = pops'' :=
      filter_eq_self.2 fun p hp => hplain _ (hrest ▸ mem_map_of_mem hp)
    rw [filter_cons_of_neg (by simp [hvalue, htag]), hkeep, hrest]
  refine ⟨typeOfScript ((pop :: pops'').filter fun pop => !isStakeTag pop.opcode.value), ?_, ?_⟩
  · rw [getStakeOutSubclass, parsed_eq_ok.2 h, ok_bind, rejectIf_bind (by rw [hstake]; decide)]
    rfl
  · rcases hvalues with hvalues | hvalues
    · exact .inl (typeOfScript_pubKeyHash (hfilter.trans hvalues)).1
    · exact .inr (typeOfScript_scriptHash (hfilter.trans hvalues)).1

/-! ## Scripts that push data after `OP_RETURN` -/

/-- A script with one push of data. -/
theorem parseScript_return (hpush : 1 ≤ push ∧ push ≤ 75)
    (hdata : data.length = push.toNat) (hne : data.length ≠ 24) :
    parseScript (OP_RETURN :: push :: data) =
      ([⟨opcodeArray OP_RETURN, []⟩, ⟨opcodeArray push, data⟩], none) := by
  have hlength : (opcodeArray push).length = push.toNat + 1 := if_pos hpush
  have hpos : 1 ≤ push.toNat := UInt8.le_iff_toNat_le.1 hpush.1
  rw [parseScript, if_neg (by simpa using hne), parseScriptTemplate]
  have hreturn : (⟨opcodeArray OP_RETURN, []⟩ : ParsedOpcode).Valid :=
    ⟨fun _ => rfl, fun h => absurd h (by decide), fun h => absurd h (by decide)⟩
  have hdatum : (⟨opcodeArray push, data⟩ : ParsedOpcode).Valid := by
    rw [ParsedOpcode.valid_iff]
    rw [hlength, hdata]
    exact ⟨by omega, fun _ => rfl, by omega⟩
  have hdata' : data = (⟨opcodeArray push, data⟩ : ParsedOpcode).lengthBytes ++ data ++ [] := by
    rw [ParsedOpcode.lengthBytes_of_pos (by dsimp only; omega), nil_append, append_nil]
  exact (Parses.cons rfl hreturn rfl (.cons rfl hdatum hdata' (.nil _))).parseLoop_eq le_rfl

theorem getScriptClass_return (hpush : 1 ≤ push ∧ push ≤ 75)
    (hdata : data.length = push.toNat) (hne : data.length ≠ 24) :
    getScriptClass DefaultScriptVersion (OP_RETURN :: push :: data) = .nullData := by
  have hsmall : push ≤ OP_PUSHDATA4 := UInt8.le_trans hpush.2 (by decide)
  have hle : data.length ≤ MaxDataCarrierSize := by
    have := push.toNat_lt
    rw [hdata, MaxDataCarrierSize]
    omega
  rw [getScriptClass, if_neg (fun h => h rfl), parsed_eq_ok.2 (parseScript_return hpush hdata hne)]
  have hvalue : (opcodeArray push).value = push := rfl
  simp [typeOfScript, isPubkey, isPubkeyAlt, isPubkeyHash, isPubkeyHashAlt, isScriptHash,
    isMultiSig, isNullData, values,
    hvalue, hsmall, hle, show (opcodeArray OP_RETURN).value = OP_RETURN from rfl]

end Fixed

end Hcashd.Script
