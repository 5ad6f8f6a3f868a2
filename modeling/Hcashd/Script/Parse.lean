import Hcashd.Lib.Bytes
import Hcashd.Lib.Result

/-!
# Parsing scripts

`parseScript` and `unparseScript` of `txscript/script.go`, with `bytes` of `txscript/opcode.go`. A
script is a sequence of instructions, each a byte that is looked up in a table of 256 opcodes,
followed by data if the opcode pushes some. Scripts of 26 bytes have a parser of their own, which
takes an instruction at offset 24 between `OP_DATA_1` and `OP_DATA_16` for `OP_1` to `OP_16`.
Everywhere else the instructions of a script are its bytes, in pieces (`Covers`), and unparsing
gives them back.
-/

namespace Hcashd.Script

open Lib List

/-- The errors of the package `txscript` that the modelled functions return, and a run-time
panic. -/
inductive ScriptErr
  | shortScript | longScript | underflow | invalidArgs | opDisabled | verifyFailed | numberTooBig
  | invalidOpcode | reservedOpcode | earlyReturn | noIf | missingEndif | tooManyPubKeys
  | tooManyOperations | elementTooBig | scriptFailed | scriptUnfinished | emptyStack | invalidIndex
  | nonPushOnly | overflow | invalidLowSSignature | invalidPubKey | cleanStack | minimalData
  | invalidFlags | sighashSingleIdx | substrIdxNegative | substrIdxOutOfBounds | negativeRotation
  | rotationOverflow | negativeShift | shiftOverflow | divideByZero | p2shStakeOpCodes
  | malformedSignature (reason : String) | other | panic | outOfFuel
  deriving DecidableEq, Repr

/-- An `opcode`: its value and its length, which counts the data of the data pushes, or is negative
and counts the bytes of the length that comes before the data. -/
structure Opcode where
  value : UInt8
  length : ℤ
  deriving DecidableEq, Repr

/-- The lengths in `opcodeArray`: `OP_DATA_1` to `OP_DATA_75`, `OP_PUSHDATA1`, `OP_PUSHDATA2`,
`OP_PUSHDATA4`, and all others. -/
def opcodeLength (value : UInt8) : ℤ :=
  if 1 ≤ value ∧ value ≤ 75 then value.toNat + 1
  else if value = 76 then -1
  else if value = 77 then -2
  else if value = 78 then -4
  else 1

/-- `opcodeArray`: an opcode by its value. -/
def opcodeArray (value : UInt8) : Opcode := ⟨value, opcodeLength value⟩

/-- `parsedOpcode`: an opcode and its data. -/
structure ParsedOpcode where
  opcode : Opcode
  data : List UInt8
  deriving DecidableEq, Repr

/-- The turn of the loop of `parseScriptTemplate` on the bytes that are left, for an instruction:
the opcode with its data, and the bytes after it. -/
def parseInstr (instr : UInt8) (script : List UInt8) :
    Except ScriptErr (ParsedOpcode × List UInt8) :=
  let op := opcodeArray instr
  if op.length = 1 then .ok (⟨op, []⟩, script.drop 1)
  else if 1 < op.length then
    let n := op.length.toNat
    if script.length < n then .error .shortScript
    else .ok (⟨op, (script.take n).drop 1⟩, script.drop n)
  else
    let n := (-op.length).toNat
    let afterOp := script.drop 1
    if afterOp.length < n then .error .shortScript
    else
      let l := ofLeBytes (afterOp.take n)
      let afterLen := afterOp.drop n
      if afterLen.length < l then .error .shortScript
      else .ok (⟨op, afterLen.take l⟩, afterLen.drop l)

/-- The loop of `parseScriptTemplate`, where `instrAt` says which instruction is taken at an offset
for a byte. With an error come the opcodes that were parsed before it. -/
def parseLoop (instrAt : ℕ → UInt8 → UInt8) :
    ℕ → ℕ → List UInt8 → List ParsedOpcode × Option ScriptErr
  | _, _, [] => ([], none)
  | 0, _, _ :: _ => ([], some .outOfFuel)
  | fuel + 1, i, b :: rest => match parseInstr (instrAt i b) (b :: rest) with
    | .error e => ([], some e)
    | .ok (pop, left) =>
      let (pops, err) := parseLoop instrAt fuel (i + ((b :: rest).length - left.length)) left
      (pop :: pops, err)

/-- `parseScriptTemplate`: the opcodes up to an error. -/
def parseScriptTemplate (script : List UInt8) : List ParsedOpcode × Option ScriptErr :=
  parseLoop (fun _ b => b) script.length 0 script

/-- The instruction that `parseAltScriptTemplate` takes at an offset. -/
def altInstr (i : ℕ) (b : UInt8) : UInt8 := if i = 24 ∧ 1 ≤ b ∧ b ≤ 16 then b + 80 else b

/-- `parseAltScriptTemplate`: the same for scripts of 26 bytes. -/
def parseAltScriptTemplate (script : List UInt8) : List ParsedOpcode × Option ScriptErr :=
  parseLoop altInstr script.length 0 script

/-- `parseScript`: chooses between the two by the length. -/
def parseScript (script : List UInt8) : List ParsedOpcode × Option ScriptErr :=
  if script.length = 26 then parseAltScriptTemplate script else parseScriptTemplate script

/-- The bytes of the length that an instruction has before its data. -/
def ParsedOpcode.lengthBytes (pop : ParsedOpcode) : List UInt8 :=
  if pop.opcode.length < 0 then leBytes (-pop.opcode.length).toNat pop.data.length else []

/-- `bytes`: an opcode as it stands in a script. -/
def ParsedOpcode.bytes (pop : ParsedOpcode) : Except ScriptErr (List UInt8) :=
  if pop.opcode.length = 1 then
    if pop.data.length ≠ 0 then .error .invalidOpcode else .ok [pop.opcode.value]
  else
    let header := pop.opcode.value :: pop.lengthBytes
    let nbytes : ℤ :=
      if pop.opcode.length < 0 then ofLeBytes pop.lengthBytes + header.length else pop.opcode.length
    let retbytes := header ++ pop.data
    if retbytes.length ≠ nbytes then .error .invalidOpcode else .ok retbytes

/-- `unparseScript`: the script of some opcodes. -/
def unparseScript (pops : List ParsedOpcode) : Except ScriptErr (List UInt8) := do
  pure (← pops.mapM ParsedOpcode.bytes).flatten

/-! ## One instruction -/

/-- The data of an instruction has the length that its opcode asks for. -/
@[mk_iff] structure ParsedOpcode.Valid (pop : ParsedOpcode) : Prop where
  one : pop.opcode.length = 1 → pop.data = []
  fixed : 1 < pop.opcode.length → pop.data.length + 1 = pop.opcode.length
  counted : pop.opcode.length < 0 → pop.data.length < 256 ^ (-pop.opcode.length).toNat

variable {pop : ParsedOpcode} {b instr : UInt8} {rest left script : List UInt8}

theorem opcodeArray_cases (value : UInt8) :
    (opcodeArray value).length = 1 ∨ 1 < (opcodeArray value).length ∨
    (opcodeArray value).length < 0 := by
  unfold opcodeArray opcodeLength
  dsimp only
  split_ifs with hdata
  · have hpos : 1 ≤ value.toNat := UInt8.le_iff_toNat_le.1 hdata.1
    omega
  all_goals decide

theorem ParsedOpcode.lengthBytes_of_pos (h : 0 < pop.opcode.length) : pop.lengthBytes = [] :=
  if_neg (not_lt.2 h.le)

theorem ParsedOpcode.lengthBytes_of_neg (h : pop.opcode.length < 0) :
    pop.lengthBytes = leBytes (-pop.opcode.length).toNat pop.data.length := if_pos h

/-- The bytes of one instruction. -/
theorem parseInstr_eq_ok : parseInstr instr (b :: rest) = .ok (pop, left) ↔
    pop.opcode = opcodeArray instr ∧ pop.Valid ∧ rest = pop.lengthBytes ++ pop.data ++ left := by
  obtain ⟨op, data⟩ := pop
  unfold parseInstr
  dsimp only
  rcases opcodeArray_cases instr with hone | hmany | hcounted
  · -- the opcode alone
    have hheader : ∀ data, (⟨opcodeArray instr, data⟩ : ParsedOpcode).lengthBytes = [] :=
      fun data =>
      ParsedOpcode.lengthBytes_of_pos (by dsimp only; omega)
    rw [if_pos hone, Except.ok.injEq, Prod.mk.injEq, ParsedOpcode.mk.injEq]
    constructor
    · rintro ⟨⟨rfl, rfl⟩, rfl⟩
      exact ⟨rfl, by simp [ParsedOpcode.valid_iff, hone], by rw [hheader]; rfl⟩
    · rintro ⟨rfl, hvalid, rfl⟩
      obtain rfl : data = [] := hvalid.one hone
      exact ⟨⟨rfl, rfl⟩, by rw [hheader]; rfl⟩
  · -- the opcode says how many bytes of data follow
    have hheader : ∀ data, (⟨opcodeArray instr, data⟩ : ParsedOpcode).lengthBytes = [] :=
      fun data =>
      ParsedOpcode.lengthBytes_of_pos (by dsimp only; omega)
    obtain ⟨n, hn⟩ : ∃ n : ℕ, (opcodeArray instr).length = n + 1 :=
      ⟨((opcodeArray instr).length - 1).toNat, by omega⟩
    rw [if_neg (by omega), if_pos hmany, hn, show ((n : ℤ) + 1).toNat = n + 1 by omega, length_cons,
      take_succ_cons, drop_succ_cons, drop_zero, drop_succ_cons]
    constructor
    · intro h
      split_ifs at h with hshort
      rw [Except.ok.injEq, Prod.mk.injEq, ParsedOpcode.mk.injEq] at h
      obtain ⟨⟨rfl, rfl⟩, rfl⟩ := h
      refine ⟨rfl,
        ⟨fun h => absurd h hmany.ne', fun _ => ?_, fun h => absurd (hmany.trans h) (by decide)⟩, ?_⟩
      · rw [length_take, hn]
        omega
      · rw [hheader, nil_append, take_append_drop]
    · rintro ⟨rfl, hvalid, rfl⟩
      have hlen : data.length = n := by
        have := hvalid.fixed hmany
        dsimp only at this
        omega
      rw [hheader, nil_append, ← hlen, take_left, drop_left, if_neg (by rw [length_append]; omega)]
  · -- the number of bytes of data stands before them
    rw [if_neg (by omega), if_neg (by omega), drop_succ_cons, drop_zero]
    generalize hn : (-(opcodeArray instr).length).toNat = n
    constructor
    · intro h
      split_ifs at h with hshort hshort'
      rw [Except.ok.injEq, Prod.mk.injEq, ParsedOpcode.mk.injEq] at h
      obtain ⟨⟨rfl, rfl⟩, rfl⟩ := h
      have htake : (rest.take n).length = n := by
        rw [length_take]
        omega
      have hdata :
          ((rest.drop n).take (ofLeBytes (rest.take n))).length = ofLeBytes (rest.take n) := by
        rw [length_take]
        omega
      refine ⟨rfl, ⟨fun h => ?_, fun h => absurd (h.trans hcounted) (by decide), fun _ => ?_⟩, ?_⟩
      · exact absurd (h.symm.trans_lt hcounted) (by decide)
      · dsimp only
        have hlt := ofLeBytes_lt (rest.take n)
        rw [htake] at hlt
        rw [hdata, hn]
        exact hlt
      · have hbytes := leBytes_ofLeBytes (rest.take n)
        rw [htake] at hbytes
        rw [ParsedOpcode.lengthBytes_of_neg hcounted]
        rw [hdata, hn, hbytes, append_assoc, take_append_drop, take_append_drop]
    · rintro ⟨rfl, hvalid, rfl⟩
      have hlen : data.length < 256 ^ n := hn ▸ hvalid.counted hcounted
      have hheader := length_leBytes n data.length
      rw [ParsedOpcode.lengthBytes_of_neg hcounted]
      dsimp only
      rw [hn, append_assoc, take_left' hheader, drop_left' hheader, ofLeBytes_leBytes,
        Nat.mod_eq_of_lt hlen, take_left, drop_left, if_neg (by rw [length_append]; omega),
        if_neg (by rw [length_append]; omega)]

/-- The bytes determine the instruction. -/
theorem ParsedOpcode.Valid.unique {pop' : ParsedOpcode} {left' : List UInt8} (h : pop.Valid)
    (h' : pop'.Valid) (hop : pop.opcode = opcodeArray b) (hop' : pop'.opcode = opcodeArray b)
    (heq : pop.lengthBytes ++ pop.data ++ left = pop'.lengthBytes ++ pop'.data ++ left') :
    pop = pop' ∧ left = left' := by
  have hparse : parseInstr b (b :: (pop.lengthBytes ++ pop.data ++ left)) = .ok (pop, left) :=
    parseInstr_eq_ok.2 ⟨hop, h, rfl⟩
  rw [parseInstr_eq_ok.2 ⟨hop', h', heq⟩, Except.ok.injEq, Prod.mk.injEq] at hparse
  exact ⟨hparse.1.symm, hparse.2.symm⟩

theorem ParsedOpcode.Valid.bytes_eq (h : pop.Valid) (hop : pop.opcode = opcodeArray instr) :
    pop.bytes = .ok (instr :: (pop.lengthBytes ++ pop.data)) := by
  have hvalue : pop.opcode.value = instr := congrArg Opcode.value hop
  have hcases : pop.opcode.length = 1 ∨ 1 < pop.opcode.length ∨ pop.opcode.length < 0 :=
    hop ▸ opcodeArray_cases instr
  unfold bytes
  dsimp only
  rw [hvalue]
  rcases hcases with hone | hmany | hcounted
  · rw [if_pos hone, h.one hone, if_neg (fun hne => hne rfl), lengthBytes_of_pos (by omega)]
    rfl
  · have hlen := h.fixed hmany
    have hpos : ¬ pop.opcode.length < 0 := by omega
    rw [if_neg (by omega), lengthBytes_of_pos (by omega), if_neg hpos, nil_append, if_neg]
    · rfl
    · rw [not_not]
      simp only [length_append, length_cons, length_nil]
      omega
  · have hlen := h.counted hcounted
    rw [if_neg (by omega), lengthBytes_of_neg hcounted, if_pos hcounted, ofLeBytes_leBytes,
      Nat.mod_eq_of_lt hlen, if_neg]
    · rfl
    · rw [not_not]
      simp only [length_append, length_cons]
      omega

/-! ## Whole scripts -/

/-- The instructions are the bytes of the script, piece by piece: each starts with the byte that its
opcode has in the table, goes on with its data, and is followed by the next one. -/
def Covers : List UInt8 → List ParsedOpcode → Prop
  | script, [] => script = []
  | script, pop :: pops => ∃ b rest, script = b :: (pop.lengthBytes ++ pop.data ++ rest) ∧
    pop.opcode = opcodeArray b ∧ Covers rest pops

/-- Unparsing gives the script back, and its instructions cover it. -/
def RoundTrips (script : List UInt8) (pops : List ParsedOpcode) : Prop :=
  unparseScript pops = .ok script ∧ Covers script pops

variable {instrAt : ℕ → UInt8 → UInt8} {fuel i : ℕ} {pops : List ParsedOpcode}

theorem unparseScript_cons {bytes : List UInt8} (h : pop.bytes = .ok bytes)
    (hpops : unparseScript pops = .ok rest) :
    unparseScript (pop :: pops) = .ok (bytes ++ rest) := by
  unfold unparseScript at hpops ⊢
  simp only [bind_eq_ok, pure_eq_ok, mapM_cons] at hpops ⊢
  obtain ⟨pieces, hpieces, rfl⟩ := hpops
  exact ⟨bytes :: pieces, ⟨bytes, h, pieces, hpieces, rfl⟩, rfl⟩

/-- One more instruction in front. -/
theorem RoundTrips.cons (hvalid : pop.Valid) (hop : pop.opcode = opcodeArray b)
    (h : RoundTrips left pops) :
    RoundTrips (b :: (pop.lengthBytes ++ pop.data ++ left)) (pop :: pops) := by
  have hunparse := unparseScript_cons (hvalid.bytes_eq hop) h.1
  rw [cons_append] at hunparse
  exact ⟨hunparse, b, left, rfl, hop, h.2⟩

/-- The instructions that are read from an offset on: each is that of its first byte, and the bytes
after it are read from the offset at which it ends. -/
inductive Parses (instrAt : ℕ → UInt8 → UInt8) : ℕ → List UInt8 → List ParsedOpcode → Prop
  | nil (i : ℕ) : Parses instrAt i [] []
  | cons {i : ℕ} {b : UInt8} {rest left : List UInt8} {pop : ParsedOpcode}
      {pops : List ParsedOpcode} (hop : pop.opcode = opcodeArray (instrAt i b)) (hvalid : pop.Valid)
      (hrest : rest = pop.lengthBytes ++ pop.data ++ left)
      (h : Parses instrAt (i + 1 + (pop.lengthBytes ++ pop.data).length) left pops) :
      Parses instrAt i (b :: rest) (pop :: pops)

theorem offset_eq (i : ℕ) (b : UInt8) (piece left : List UInt8) :
    i + ((b :: (piece ++ left)).length - left.length) = i + 1 + piece.length := by
  simp only [length_cons, length_append]
  omega

/-- The loop parses. -/
theorem parses_of_parseLoop (h : parseLoop instrAt fuel i script = (pops, none)) :
    Parses instrAt i script pops := by
  induction fuel generalizing i script pops with
  | zero =>
    cases script with
    | nil =>
      cases h
      exact .nil i
    | cons b rest => cases h
  | succ fuel ih =>
    cases script with
    | nil =>
      cases h
      exact .nil i
    | cons b rest =>
      rw [parseLoop] at h
      cases hinstr : parseInstr (instrAt i b) (b :: rest) with
      | error e =>
        rw [hinstr] at h
        cases h
      | ok p =>
        obtain ⟨pop, left⟩ := p
        obtain ⟨hop, hvalid, rfl⟩ := parseInstr_eq_ok.1 hinstr
        rw [hinstr] at h
        dsimp only at h
        rw [offset_eq, Prod.mk.injEq] at h
        obtain ⟨rfl, hnone⟩ := h
        exact .cons hop hvalid rfl (ih (Prod.ext rfl hnone))

/-- With enough fuel the loop finds the parse. -/
theorem Parses.parseLoop_eq (h : Parses instrAt i script pops) (hfuel : script.length ≤ fuel) :
    parseLoop instrAt fuel i script = (pops, none) := by
  induction h generalizing fuel with
  | nil i => exact parseLoop.eq_1 ..
  | cons hop hvalid hrest _ ih =>
    subst hrest
    rw [length_cons, length_append] at hfuel
    obtain ⟨fuel, rfl⟩ : ∃ n, fuel = n + 1 := ⟨fuel - 1, by omega⟩
    rw [parseLoop, parseInstr_eq_ok.2 ⟨hop, hvalid, rfl⟩]
    dsimp only
    rw [offset_eq, ih (by omega)]

/-- A parse without substitutions unparses to the script. -/
theorem Parses.roundTrips (h : Parses instrAt i script pops)
    (hid : ∀ j b, script[j]? = some b → instrAt (i + j) b = b) : RoundTrips script pops := by
  induction h with
  | nil i => exact ⟨rfl, rfl⟩
  | @cons i b rest left pop pops hop hvalid hrest _ ih =>
    subst hrest
    have hfirst : instrAt i b = b := hid 0 b rfl
    rw [hfirst] at hop
    refine RoundTrips.cons hvalid hop (ih fun j b' hj => ?_)
    have hoffset : i + 1 + (pop.lengthBytes ++ pop.data).length + j =
        i + ((pop.lengthBytes ++ pop.data).length + j + 1) := by omega
    rw [hoffset]
    refine hid _ b' ?_
    rw [getElem?_cons_succ, getElem?_append_right (Nat.le_add_right _ _), Nat.add_sub_cancel_left]
    exact hj

/-! ## Scripts of 26 bytes -/

/-- The first 24 bytes of a script of 26 bytes are a number of whole instructions, and the next one
is between `OP_DATA_1` and `OP_DATA_16`. -/
def Rewrites (script : List UInt8) : Prop :=
  script.length = 26 ∧ (parseScriptTemplate (script.take 24)).2 = none ∧ ∃ b ∈ script[24]?,
    1 ≤ b ∧ b ≤ 16

instance (script : List UInt8) : Decidable (Rewrites script) :=
  inferInstanceAs (Decidable (_ ∧ _ ∧ ∃ b ∈ script[24]?, 1 ≤ b ∧ b ≤ 16))

theorem altInstr_of_ne {j : ℕ} (h : j ≠ 24) (b : UInt8) : altInstr j b = b :=
  if_neg fun hn => h hn.1

/-- The parser of scripts of 26 bytes up to offset 24: either this is where an instruction starts,
and the instructions before it are those of the bytes before it, or no instruction is rewritten. -/
theorem Parses.split {first second : List UInt8} (h : Parses altInstr i (first ++ second) pops)
    (hi : i + first.length = 24) :
    ((∃ pops1, Parses (fun _ b => b) i first pops1) ∧ ∃ pops2, Parses altInstr 24 second pops2 ∧
      (∀ rest, RoundTrips rest pops2 → RoundTrips (first ++ rest) pops) ∧
      ∀ rest, unparseScript pops2 = .ok rest → unparseScript pops = .ok (first ++ rest)) ∨
    ((∀ pops1, ¬ Parses (fun _ b => b) i first pops1) ∧ RoundTrips (first ++ second) pops) := by
  generalize hs : first ++ second = s at h
  induction h generalizing first with
  | nil i =>
    obtain ⟨rfl, rfl⟩ := append_eq_nil_iff.1 hs
    exact .inl ⟨⟨[], .nil i⟩, [], .nil 24, fun rest hrest => hrest, fun rest hrest => hrest⟩
  | @cons i b rest left pop pops hop hvalid hrest hleft ih =>
    cases first with
    | nil =>
      obtain rfl : i = 24 := hi
      subst hs
      exact .inl ⟨⟨[], .nil 24⟩, _, .cons hop hvalid hrest hleft, fun rest hrest =>
        hrest, fun rest hrest => hrest⟩
    | cons b' first =>
      rw [cons_append, cons.injEq] at hs
      obtain ⟨rfl, rfl⟩ := hs
      rw [length_cons] at hi
      rw [altInstr_of_ne (by omega)] at hop
      by_cases hwhole : (pop.lengthBytes ++ pop.data).length ≤ first.length
      · -- the instruction ends before the offset
        obtain ⟨more, rfl⟩ : ∃ more, first = pop.lengthBytes ++ pop.data ++ more :=
          ⟨_, (prefix_iff_eq_append.1 (prefix_of_prefix_length_le
            ⟨left, hrest.symm⟩ (prefix_append first second) hwhole)).symm⟩
        rw [append_assoc, append_cancel_left_eq] at hrest
        subst hrest
        have hcons : ∀ s, b' :: (pop.lengthBytes ++ pop.data ++ (more ++ s)) =
            b' :: (pop.lengthBytes ++ pop.data ++ more) ++ s := fun s => by
          rw [cons_append, append_assoc (pop.lengthBytes ++ pop.data)]
        rw [length_append] at hi
        rcases ih (by omega) rfl with ⟨⟨pops1, hfirst⟩, pops2, hsecond, hround,
          hunparse⟩ | ⟨hfirst, hround⟩
        · refine .inl ⟨⟨pop :: pops1, .cons hop hvalid rfl hfirst⟩, pops2, hsecond, fun s hs =>
            ?_, fun s hs => ?_⟩
          · exact hcons s ▸ RoundTrips.cons hvalid hop (hround s hs)
          · exact hcons s ▸ unparseScript_cons (hvalid.bytes_eq hop) (hunparse s hs)
        · refine .inr ⟨fun pops1 hparse => ?_, ?_⟩
          · obtain _ | ⟨hop1, hvalid1, heq, hparse⟩ := hparse
            obtain ⟨rfl, rfl⟩ := hvalid.unique hvalid1 hop hop1 heq
            exact hfirst _ hparse
          · rw [append_assoc]
            exact RoundTrips.cons hvalid hop hround
      · -- the instruction goes beyond the offset, and only the one at the offset is rewritten
        refine .inr ⟨fun pops1 hparse => ?_, ?_⟩
        · obtain _ | ⟨hop1, hvalid1, rfl, -⟩ := hparse
          rw [append_assoc] at hrest
          obtain ⟨rfl, -⟩ := hvalid1.unique hvalid hop1 hop hrest
          simp only [length_append] at hwhole
          omega
        · rw [hrest]
          refine RoundTrips.cons hvalid hop (hleft.roundTrips fun j b' _ => altInstr_of_ne ?_ b')
          omega

/-- What the substituted byte unparses to. -/
theorem Parses.altInstr_last {x : UInt8} (h : Parses altInstr 24 (x :: rest) pops) :
    if 1 ≤ x ∧ x ≤ 16 then ∃ bytes, unparseScript pops = .ok ((x + 80) :: bytes)
      else RoundTrips (x :: rest) pops := by
  split_ifs with hsmall
  · obtain _ | ⟨hop, hvalid, -, hloop⟩ := h
    have hinstr : altInstr 24 x = x + 80 := if_pos ⟨rfl, hsmall⟩
    rw [hinstr] at hop
    have hleft := hloop.roundTrips fun j b' _ => altInstr_of_ne (by omega) b'
    exact ⟨_, unparseScript_cons (hvalid.bytes_eq hop) hleft.1⟩
  · refine h.roundTrips fun j b' hj => ?_
    cases j with
    | zero =>
      cases hj
      exact if_neg fun hn => hsmall hn.2
    | succ j => exact altInstr_of_ne (by omega) b'

/-- A script that parses is given back by unparsing, and its instructions cover it, unless it has 26
bytes and the instruction at offset 24 is rewritten. -/
theorem roundTrips_iff_not_rewrites (script : List UInt8) (pops : List ParsedOpcode)
    (h : parseScript script = (pops, none)) : RoundTrips script pops ↔ ¬ Rewrites script := by
  unfold parseScript at h
  split_ifs at h with hlen
  · obtain ⟨x, y, hdrop⟩ : ∃ x y, script.drop 24 = [x, y] := by
      have hlen' : (script.drop 24).length = 2 := by rw [length_drop, hlen]
      exact length_eq_two.1 hlen'
    have hsplit : script = script.take 24 ++ [x, y] := by rw [← hdrop, take_append_drop]
    have htake : (script.take 24).length = 24 := by rw [length_take, hlen]; rfl
    have hx : script[24]? = some x := by
      rw [hsplit, getElem?_append_right (by omega), htake]
      rfl
    have hrewrites :
        Rewrites script ↔ (parseScriptTemplate (script.take 24)).2 = none ∧ 1 ≤ x ∧ x ≤ 16 := by
      rw [Rewrites, hx]
      simp [hlen]
    have hparse : Parses altInstr 0 (script.take 24 ++ [x, y]) pops :=
      hsplit ▸ parses_of_parseLoop h
    rw [hrewrites]
    rcases hparse.split
      (by omega) with ⟨⟨pops1, hfirst⟩, pops2, hsecond, hround, hunparse⟩ | ⟨hfirst, hround⟩
    · have hnone : (parseScriptTemplate (script.take 24)).2 = none := by
        rw [parseScriptTemplate, hfirst.parseLoop_eq le_rfl]
      have hlast := hsecond.altInstr_last
      split_ifs at hlast with hsmall
      · refine iff_of_false (fun hfalse => ?_) (fun hn => hn ⟨hnone, hsmall⟩)
        obtain ⟨bytes, hbytes⟩ := hlast
        have heq := hfalse.1
        rw [hunparse _ hbytes, Except.ok.injEq] at heq
        have hhead : x + 80 = x := (cons.inj (append_cancel_left (heq.trans hsplit))).1
        have hnat := congrArg UInt8.toNat hhead
        have hle : x.toNat ≤ 16 := UInt8.le_iff_toNat_le.1 hsmall.2
        rw [UInt8.toNat_add, show (80 : UInt8).toNat = 80 from rfl] at hnat
        omega
      · refine iff_of_true ?_ (fun hn => hsmall hn.2)
        rw [hsplit]
        exact hround _ hlast
    · refine iff_of_true (hsplit ▸ hround) fun hn => ?_
      obtain ⟨pops1, hpops1⟩ : ∃ pops1, parseScriptTemplate (script.take 24) = (pops1, none) :=
        ⟨_, Prod.ext rfl hn.1⟩
      exact hfirst pops1 (parses_of_parseLoop hpops1)
  · exact iff_of_true ((parses_of_parseLoop h).roundTrips fun _ _ _ => rfl) fun hn => hlen hn.1

/-- A pay-to-pubkey-hash script with an alternative signature type, where the type is a data
push. -/
def altDataScript : List UInt8 := [0x76, 0xa9, 20] ++ replicate 20 7 ++ [0x88, 1, 0xbe]

/-- A pay-to-pubkey-hash script with an alternative signature type, where the type is a small
number. -/
def altNumberScript : List UInt8 := [0x76, 0xa9, 20] ++ replicate 20 7 ++ [0x88, 0x51, 0xbe]

/-- A script with a small number as signature type. -/
theorem roundTrips_iff_altNumberScript : ∃ pops, parseScript altNumberScript = (pops, none) ∧
    RoundTrips altNumberScript pops := by
  have hparse :
      parseScript altNumberScript = ((parseScript altNumberScript).1, none) := by decide +kernel
  exact ⟨_, hparse, (roundTrips_iff_not_rewrites _ _ hparse).2 (by decide +kernel)⟩

/-- The push of one byte at offset 24 is read as the number one followed by another instruction, and
comes back as another byte. -/
theorem exists_unparse_ne : (parseScript altDataScript).2 = none ∧
    unparseScript (parseScript altDataScript).1 = .ok altNumberScript ∧
    altNumberScript ≠ altDataScript := by
  decide +kernel

end Hcashd.Script
