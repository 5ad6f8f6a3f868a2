import Hcashd.Script.Parse

/-!
# Numbers and stacks of the script engine

`txscript/scriptnum.go` and `txscript/stack.go`. Items are bytes, which an opcode may take for a
number or a truth value. The functions of a stack only move its items, whatever they are, and never
make new ones (`Rearranges`). A stack is a list with its top first.
-/

namespace Hcashd.Script

open Lib

/-! ## Numbers and truth values -/

def mathOpCodeMaxScriptNumLen : ℕ := 4
def altSigSuitesMaxscriptNumLen : ℕ := 1

/-- The last byte of a number, or the byte before it, keeps its last bit for the sign:
`checkMinimalDataEncoding` finds no byte to spare. -/
def isMinimalData (v : List UInt8) : Bool := match v.reverse with
  | [] => true
  | [last] => last &&& 0x7f != 0
  | last :: before :: _ => last &&& 0x7f != 0 || before &&& 0x80 != 0

/-- `makeScriptNum`. The callers allow at most five bytes, so the sum of the shifted bytes does not
overflow. -/
def makeScriptNum (v : List UInt8) (requireMinimal : Bool) (scriptNumLen : ℕ) :
    Except ScriptErr ℤ := do
  rejectIf (scriptNumLen < v.length) .numberTooBig
  rejectIf (requireMinimal = true ∧ isMinimalData v = false) .minimalData
  match v.getLast? with
  | none => .ok 0
  | some last =>
    if last &&& 0x80 ≠ 0 then .ok (-(ofLeBytes v - 0x80 * 2 ^ (8 * (v.length - 1)) : ℤ))
    else .ok (ofLeBytes v)

/-- The bytes of a positive 64-bit number, the least significant first, without the zeros at the
end. -/
def absBytes : ℕ → ℕ → List UInt8
  | 0, _ => []
  | fuel + 1, n => if n = 0 then [] else UInt8.ofNat n :: absBytes fuel (n / 256)

/-- `Bytes` of `scriptNum`: little endian, with a sign bit. -/
def scriptNumBytes (n : ℤ) : List UInt8 :=
  let result := absBytes 8 n.natAbs
  match result.reverse with
  | [] => []
  | last :: before =>
    if last &&& 0x80 ≠ 0 then result ++ [if n < 0 then 0x80 else 0]
    else if n < 0 then before.reverse ++ [last ||| 0x80]
    else result

/-- `(scriptNum).Int32`. -/
def int32 (n : ℤ) : ℤ := max (-2 ^ 31) (min n (2 ^ 31 - 1))

/-- `asBool`: some byte is not zero, where the sign of the last one does not count. -/
def asBool : List UInt8 → Bool
  | [] => false
  | [b] => b != 0 && b != 0x80
  | b :: rest => b != 0 || asBool rest

/-- `fromBool`: one byte for true, none for false. -/
def fromBool (v : Bool) : List UInt8 := if v then [1] else []

/-! ## Stacks -/

section

variable {α : Type}

/-- `PeekByteArray`. -/
def peek (stk : List α) (idx : ℤ) : Except ScriptErr α :=
  if idx < 0 then .error .underflow
  else match stk[idx.toNat]? with
    | none => .error .underflow
    | some so => .ok so

/-- `nipN`: takes an item out. -/
def nipN (stk : List α) (idx : ℤ) : Except ScriptErr (α × List α) := do
  let so ← peek stk idx
  .ok (so, stk.eraseIdx idx.toNat)

/-- `NipN`. -/
def dropNth (stk : List α) (idx : ℤ) : Except ScriptErr (List α) := do
  let (_, stk) ← nipN stk idx
  .ok stk

/-- `PickN`: copies an item to the top. -/
def pickN (stk : List α) (n : ℤ) : Except ScriptErr (List α) := do
  let so ← peek stk n
  .ok (so :: stk)

/-- `RollN`: moves an item to the top. -/
def rollN (stk : List α) (n : ℤ) : Except ScriptErr (List α) := do
  let (so, stk) ← nipN stk n
  .ok (so :: stk)

/-- `Tuck`: copies the top below the second item. -/
def tuck : List α → Except ScriptErr (List α)
  | so2 :: so1 :: stk => .ok (so2 :: so1 :: so2 :: stk)
  | _ => .error .underflow

/-- `n` turns of a loop. -/
def times (f : List α → Except ScriptErr (List α)) : ℕ → List α → Except ScriptErr (List α)
  | 0, stk => .ok stk
  | n + 1, stk => do
    let stk ← f stk
    times f n stk

/-- `DropN`, for a number that is not zero. -/
def dropN (n : ℕ) : List α → Except ScriptErr (List α) := times (fun stk => dropNth stk 0) n

/-- `DupN`: duplicates the top items. -/
def dupN (n : ℕ) : List α → Except ScriptErr (List α) := times (fun stk => pickN stk (n - 1)) n

/-- `RotN`: rotates the top items. -/
def rotN (n : ℕ) : List α → Except ScriptErr (List α) := times (fun stk => rollN stk (3 * n - 1)) n

/-- `SwapN`: swaps the top items with those below. -/
def swapN (n : ℕ) : List α → Except ScriptErr (List α) := times (fun stk => rollN stk (2 * n - 1)) n

/-- `OverN`: copies items over the top ones. -/
def overN (n : ℕ) : List α → Except ScriptErr (List α) := times (fun stk => pickN stk (2 * n - 1)) n

/-! ## Stack functions make no items -/

/-- Every item of the result is one that was there. -/
def Rearranges (f : List α → Except ScriptErr (List α)) : Prop :=
  ∀ ⦃stk stk'⦄, f stk = .ok stk' → stk' ⊆ stk

theorem mem_of_peek {stk : List α} {idx : ℤ} {so : α} (h : peek stk idx = .ok so) : so ∈ stk := by
  unfold peek at h
  split_ifs at h
  split at h
  · cases h
  next so' hso =>
    cases h
    exact List.mem_of_getElem? hso

theorem subset_of_nipN {stk stk' : List α} {idx : ℤ} {so : α} (h : nipN stk idx = .ok (so, stk')) :
    so ∈ stk ∧ stk' ⊆ stk := by
  simp only [nipN, bind_eq_ok, Except.ok.injEq, Prod.mk.injEq] at h
  obtain ⟨_, hpeek, rfl, rfl⟩ := h
  exact ⟨mem_of_peek hpeek, List.eraseIdx_subset⟩

/-- Dropping rearranges. -/
theorem rearranges_dropNth (idx : ℤ) : Rearranges (fun stk : List α => dropNth stk idx) := by
  intro stk stk' h
  simp only [dropNth, bind_eq_ok, Except.ok.injEq] at h
  obtain ⟨⟨so, _⟩, hnip, rfl⟩ := h
  exact (subset_of_nipN hnip).2

/-- Picking rearranges. -/
theorem rearranges_pickN (n : ℤ) : Rearranges (fun stk : List α => pickN stk n) := by
  intro stk stk' h
  simp only [pickN, bind_eq_ok, Except.ok.injEq] at h
  obtain ⟨so, hpeek, rfl⟩ := h
  exact List.cons_subset.2 ⟨mem_of_peek hpeek, List.Subset.refl _⟩

/-- Rolling rearranges. -/
theorem rearranges_rollN (n : ℤ) : Rearranges (fun stk : List α => rollN stk n) := by
  intro stk stk' h
  simp only [rollN, bind_eq_ok, Except.ok.injEq] at h
  obtain ⟨⟨so, _⟩, hnip, rfl⟩ := h
  exact List.cons_subset.2 (subset_of_nipN hnip)

theorem rearranges_tuck : Rearranges (tuck (α := α)) := by
  intro stk stk' h
  unfold tuck at h
  split at h
  · cases h
    intro x hx
    simp only [List.mem_cons] at hx ⊢
    tauto
  · cases h

/-- So does a repetition. -/
theorem Rearranges.times {f : List α → Except ScriptErr (List α)} (hf : Rearranges f) (n : ℕ) :
    Rearranges (times f n) := by
  induction n with
  | zero =>
    intro stk stk' h
    cases h
    exact List.Subset.refl _
  | succ n ih =>
    intro stk stk' h
    simp only [Script.times, bind_eq_ok] at h
    obtain ⟨mid, hmid, hrest⟩ := h
    exact List.Subset.trans (ih hrest) (hf hmid)

end

end Hcashd.Script
