import Hcashd.Script.Memory

/-!
# Slices that share an array

`OP_CAT` appends with Go's `append`, which writes into the array of the item below the top if that
item has room. The data of a push has room up to the end of its script, a part of an item has the
room of the item, and a number has room for nine bytes. What is written there may be part of another
item, of a script that is being run, or of the transaction. An opcode leaves everything that it does
not take as it is unless it is an `OP_CAT` with room over bytes that something else shows
(`undisturbed_iff`).
-/

namespace Hcashd.Script

open Lib

/-- The items that an opcode does not pop. `OP_CAT` pops two; the other opcodes are held to all
items. -/
def unpopped (pop : Instruction) (vm : Vm) : List Slice :=
  if pop.opcode.value = OP_CAT then vm.dstack.drop 2 else vm.dstack

/-- What an opcode must not change: the items that it does not pop, the parsed scripts and the
transaction. -/
def keptViews (cfg : EngineConfig) (pop : Instruction) (vm : Vm) : List Slice :=
  unpopped pop vm ++ vm.astack ++ vm.scripts.flatten.map Instruction.data ++
    cfg.tx.signatureScripts ++ cfg.tx.pkScripts

/-- The bytes of everything that an opcode must not change are the same. -/
def Undisturbed (cfg : EngineConfig) (pop : Instruction) (vm vm' : Vm) : Prop :=
  ∀ s ∈ keptViews cfg pop vm, vm'.heap.read s = vm.heap.read s

/-- An `OP_CAT` that runs and whose second operand has room over bytes that something else shows
differently. -/
def Clobbers (cfg : EngineConfig) (pop : Instruction) (vm : Vm) : Prop :=
  pop.opcode.value = OP_CAT ∧ vm.isBranchExecuting = true ∧ ∃ a b rest, vm.dstack = a :: b :: rest ∧
    0 < a.len ∧
    0 < b.len ∧ b.len + a.len ≤ b.cap ∧ ∃ s ∈ keptViews cfg pop vm, ¬ vm.heap.Agrees b a s

variable {cfg : EngineConfig} {pop : Instruction} {vm vm' : Vm}

theorem WellFormed.keptViews (h : WellFormed cfg vm) :
    ∀ s ∈ keptViews cfg pop vm, vm.heap.Fits s := by
  intro s hs
  simp only [Script.keptViews, List.mem_append, List.mem_map, List.mem_flatten] at hs
  rcases hs with (((hs | hs) | ⟨pop', ⟨script, hscript, hpop'⟩, rfl⟩) | hs) | hs
  · refine h.dstack s ?_
    unfold unpopped at hs
    split_ifs at hs
    · exact List.mem_of_mem_drop hs
    · exact hs
  · exact h.astack s hs
  · exact h.scripts script hscript pop' hpop'
  · exact h.signatureScripts s hs
  · exact h.pkScripts s hs

/-- A heap that only grows disturbs nothing. -/
theorem undisturbed_of_isPrefix (h : WellFormed cfg vm) (hpre : vm.heap <+: vm'.heap) :
    Undisturbed cfg pop vm vm' :=
  fun s hs => Heap.read_of_isPrefix hpre (h.keptViews s hs)

/-- When `OP_CAT` disturbs nothing. -/
theorem undisturbed_opcodeCat_iff (h : WellFormed cfg vm) (hvalue : pop.opcode.value = OP_CAT)
    (hbranch : vm.isBranchExecuting = true) {numOps : ℕ}
    (hrun : opcodeCat cfg pop { vm with numOps } = .ok vm') :
    Undisturbed cfg pop vm vm' ↔ ¬ Clobbers cfg pop vm := by
  obtain ⟨a, b, rest, hstack, hcases⟩ := opcodeCat_cases hrun
  have hstack : vm.dstack = a :: b :: rest := hstack
  have hfits := h.dstack
  rw [hstack] at hfits
  obtain ⟨ha, hb, -⟩ : vm.heap.Fits a ∧ vm.heap.Fits b ∧ ∀ so ∈ rest, vm.heap.Fits so := by
    simpa only [List.forall_mem_cons] using hfits
  -- The operands are determined by the stack.
  have hclobbers : Clobbers cfg pop vm ↔ 0 < a.len ∧ 0 < b.len ∧ b.len + a.len ≤ b.cap ∧
      ∃ s ∈ keptViews cfg pop vm, ¬ vm.heap.Agrees b a s := by
    constructor
    · rintro ⟨-, -, a', b', rest', hstack', hwrites⟩
      rw [hstack, List.cons.injEq, List.cons.injEq] at hstack'
      obtain ⟨rfl, rfl, -⟩ := hstack'
      exact hwrites
    · exact fun hwrites => ⟨hvalue, hbranch, a, b, rest, hstack, hwrites⟩
  rcases hcases with ⟨hempty, so, -, rfl⟩ | ⟨hpos, hpos', -, rfl⟩
  · refine iff_of_true (fun s _ => rfl) ?_
    rw [hclobbers]
    omega
  by_cases hroom : b.len + a.len ≤ b.cap
  · rw [hclobbers]
    simp only [hpos, hpos', hroom, true_and, not_exists, not_and, not_not]
    exact forall₂_congr fun s hs => Heap.read_append_of_room hb ha hpos hroom (h.keptViews s hs)
  · refine iff_of_true (undisturbed_of_isPrefix h ?_) ?_
    · show vm.heap <+: (vm.heap.append b a _).1
      rw [Heap.append_of_no_room hroom]
      exact Heap.isPrefix_alloc _ _ _
    · rw [hclobbers]
      exact fun hwrites => hroom hwrites.2.2.1

/-- In every state of a run an opcode leaves everything that it does not take as it is, unless it is
an `OP_CAT` with room over bytes that something else shows differently. -/
theorem undisturbed_iff {heap : Heap UInt8} {scriptPubKey : Slice}
    (hinput : InputFits cfg heap scriptPubKey)
    (hreach : Reachable cfg heap scriptPubKey vm) (hdata : vm.heap.Fits pop.data)
    (hrun : executeOpcode cfg pop vm = .ok vm') :
    Undisturbed cfg pop vm vm' ↔ ¬ Clobbers cfg pop vm := by
  have h := hreach.wellFormed hinput
  obtain ⟨numOps, ⟨hskip, -, rfl⟩ | ⟨hruns, hop⟩⟩ := executeOpcode_cases hrun
  · refine iff_of_true (fun s _ => rfl) fun hclobbers => ?_
    rw [hclobbers.2.1] at hskip
    cases hskip
  by_cases hvalue : pop.opcode.value = OP_CAT
  · have hbranch : vm.isBranchExecuting = true := by
      rcases hruns with hbranch | hcond
      · exact hbranch
      · simp [Opcode.isConditional, hvalue, OP_CAT] at hcond
    rw [hvalue, opfunc_OP_CAT] at hop
    exact undisturbed_opcodeCat_iff h hvalue hbranch hop
  · have hcounted : Grows vm { vm with numOps } :=
      ⟨List.prefix_refl _, h.dstack, h.astack, rfl, rfl⟩
    have hgrows := keeps_opfunc hvalue hdata hcounted hop
    exact iff_of_true (undisturbed_of_isPrefix h hgrows.heap) fun hclobbers => hvalue hclobbers.1

/-! ## An example -/

/-- A number of steps. -/
def afterSteps (cfg : EngineConfig) : ℕ → Vm → Except ScriptErr Vm
  | 0, vm => .ok vm
  | n + 1, vm => do
    let (_, vm) ← step cfg vm
    afterSteps cfg n vm

theorem Reachable.afterSteps {heap : Heap UInt8} {scriptPubKey : Slice} {n : ℕ}
    (h : Reachable cfg heap scriptPubKey vm) (hrun : afterSteps cfg n vm = .ok vm') :
    Reachable cfg heap scriptPubKey vm' := by
  induction n generalizing vm with
  | zero =>
    cases hrun
    exact h
  | succ n ih =>
    simp only [Script.afterSteps, bind_eq_ok, Prod.exists] at hrun
    obtain ⟨done, vm1, hstep, hrest⟩ := hrun
    exact ih (h.next hstep) hrest

/-- A signature script that pushes two and three bytes, and output scripts for them: one that tucks
the last under the other and puts them together in the other order, and one that puts them
together. -/
def catHeap : Heap UInt8 := [[2, 1, 2, 3, 3, 4, 5], [125, 124, 126], [126]]

/-- An engine whose transaction has the seven bytes as signature script. -/
def catConfig : EngineConfig :=
  { sampleConfig with tx := { sampleConfig.tx with signatureScripts := [⟨0, 0, 7, 7⟩] } }

theorem exists_catWithoutRoom : ∃ vm, newEngine catConfig catHeap ⟨1, 0, 3, 3⟩ = .ok vm ∧
    ∃ vm1, afterSteps catConfig 4 vm = .ok vm1 ∧
    vm1.dstack = [⟨0, 1, 2, 6⟩, ⟨0, 4, 3, 3⟩, ⟨0, 4, 3, 3⟩] ∧
    vm1.isBranchExecuting = true ∧ ∃ pop, vm1.currentOpcode = .ok pop ∧ pop.opcode.value = OP_CAT ∧
    ∃ vm', executeOpcode catConfig pop vm1 = .ok vm' ∧
    vm'.dstack.map vm'.heap.read = [[3, 4, 5, 1, 2], [3, 4, 5]] := by
  decide +kernel

/-- `OP_CAT` onto the last push, which has no room, leaves the copy of this push below its
operands. -/
theorem undisturbed_catConfig : ∃ vm pop vm', Reachable catConfig catHeap ⟨1, 0, 3, 3⟩ vm ∧
    vm.currentOpcode = .ok pop ∧ pop.opcode.value = OP_CAT ∧ vm.isBranchExecuting = true ∧
    vm.dstack.length = 3 ∧
    executeOpcode catConfig pop vm = .ok vm' ∧ Undisturbed catConfig pop vm vm' := by
  have hinput : InputFits catConfig catHeap ⟨1, 0, 3, 3⟩ := by
    refine ⟨⟨by decide, by decide⟩, ?_, ?_⟩
    all_goals simp [catConfig, sampleConfig, Heap.Fits, Heap.array, catHeap]
  obtain ⟨vm, hnew, vm1, hsteps, hstack, hbranch, pop, hpop, hcat, vm', hexec, -⟩ :=
    exists_catWithoutRoom
  have hreach := (Reachable.start hnew).afterSteps hsteps
  have hdata := (hreach.wellFormed hinput).currentOpcode hpop
  refine ⟨vm1, pop, vm', hreach, hpop, hcat, hbranch, by rw [hstack]; rfl, hexec,
    (undisturbed_iff hinput hreach hdata hexec).2 ?_⟩
  rintro ⟨-, -, a, b, rest, hstack', -, -, hroom, -⟩
  rw [hstack, List.cons.injEq, List.cons.injEq] at hstack'
  obtain ⟨rfl, rfl, -⟩ := hstack'
  exact absurd hroom (by decide)

/-- `OP_CAT` of the two pushes overwrites the signature script that they are parts of. -/
theorem exists_signatureScript_overwritten :
    ∃ vm pop vm', Reachable catConfig catHeap ⟨2, 0, 1, 1⟩ vm ∧
    vm.currentOpcode = .ok pop ∧ executeOpcode catConfig pop vm = .ok vm' ∧
    ¬ Undisturbed catConfig pop vm vm' ∧
    (catConfig.tx.read vm.heap).txIn.map TxIn.signatureScript = [[2, 1, 2, 3, 3, 4, 5]] ∧
    (catConfig.tx.read vm'.heap).txIn.map TxIn.signatureScript = [[2, 1, 2, 3, 4, 5, 5]] := by
  refine ⟨_, _, _,
    (Reachable.start (eq_ok_valueOf ?hnew)).afterSteps (n := 2) (eq_ok_valueOf ?hsteps),
    eq_ok_valueOf ?hpop, eq_ok_valueOf ?hexec, ?_, ?_, ?_⟩
  · decide +kernel
  · decide +kernel
  · decide +kernel
  · decide +kernel
  · unfold Undisturbed
    decide +kernel
  · decide +kernel
  · decide +kernel

end Hcashd.Script
