import Hcashd.Script.Execute

/-!
# What opcodes do to memory

All opcodes but `OP_CAT` only make new arrays: what a slice shows before them it shows after them
(`keeps_opfunc`). The slices of an engine fit into their arrays throughout a run
(`Reachable.wellFormed`).
-/

namespace Hcashd.Script

open Lib List

/-- Arrays were added at most, and the items of the stacks fit. -/
structure Grows (vm₀ vm : Vm) : Prop where
  heap : vm₀.heap <+: vm.heap
  dstack : ∀ so ∈ vm.dstack, vm.heap.Fits so
  astack : ∀ so ∈ vm.astack, vm.heap.Fits so
  scripts : vm.scripts = vm₀.scripts
  saved : vm.savedFirstStack = vm₀.savedFirstStack

/-- A function of an opcode that only makes new arrays. -/
def Keeps (f : Opfunc) : Prop := ∀ ⦃cfg pop vm₀ vm vm'⦄, vm₀.heap.Fits pop.data → Grows vm₀ vm →
  f cfg pop vm = .ok vm' → Grows vm₀ vm'

/-! ## The data stack -/

namespace Grows

variable {cfg : EngineConfig} {vm₀ vm vm' : Vm} {so : Slice}

section

variable (h : Grows vm₀ vm)

include h

theorem popByteArray (hpop : vm.popByteArray = .ok (so, vm')) :
    Grows vm₀ vm' ∧ vm'.heap.Fits so := by
  unfold Vm.popByteArray at hpop
  split at hpop
  · cases hpop
  next so' dstack hstack =>
    cases hpop
    have hfits := h.dstack
    rw [hstack] at hfits
    obtain ⟨hso, hrest⟩ := forall_mem_cons.1 hfits
    exact ⟨{ h with dstack := hrest }, hso⟩

theorem popInt {maxLen : ℕ} {n : ℤ} (hpop : vm.popInt cfg maxLen = .ok (n, vm')) :
    Grows vm₀ vm' := by
  simp only [Vm.popInt, bind_eq_ok, Except.ok.injEq, Prod.mk.injEq, Prod.exists] at hpop
  obtain ⟨so, vm1, hpop, _, -, -, rfl⟩ := hpop
  exact (h.popByteArray hpop).1

theorem popBool {b : Bool} (hpop : vm.popBool = .ok (b, vm')) : Grows vm₀ vm' := by
  simp only [Vm.popBool, bind_eq_ok, Except.ok.injEq, Prod.mk.injEq, Prod.exists] at hpop
  obtain ⟨so, vm1, hpop, -, rfl⟩ := hpop
  exact (h.popByteArray hpop).1

theorem popByteArrays {n : ℕ} {sos : List Slice} (hpop : vm.popByteArrays n = .ok (sos, vm')) :
    Grows vm₀ vm' := by
  induction n generalizing vm sos with
  | zero =>
    cases hpop
    exact h
  | succ n ih =>
    simp only [Vm.popByteArrays, bind_eq_ok, Except.ok.injEq, Prod.mk.injEq, Prod.exists] at hpop
    obtain ⟨so, vm1, hpop, rest, vm2, hrest, -, rfl⟩ := hpop
    exact ih (h.popByteArray hpop).1 hrest

theorem pushByteArray (hso : vm.heap.Fits so) : Grows vm₀ (vm.pushByteArray so) :=
  { h with dstack := forall_mem_cons.2 ⟨hso, h.dstack⟩ }

theorem pushNil : Grows vm₀ (vm.pushByteArray .nil) := h.pushByteArray (Heap.fits_nil _)

theorem pushNew (bytes : List UInt8) (cap : ℕ) : Grows vm₀ (vm.pushNew bytes cap) := by
  have hpre := vm.heap.isPrefix_alloc bytes cap
  exact ⟨h.heap.trans hpre,
    forall_mem_cons.2 ⟨vm.heap.fits_alloc bytes cap, fun so hso =>
      (h.dstack so hso).of_isPrefix hpre⟩,
    fun so hso => (h.astack so hso).of_isPrefix hpre, h.scripts, h.saved⟩

theorem pushInt (val : ℤ) : Grows vm₀ (vm.pushInt val) := by
  unfold Vm.pushInt
  split_ifs
  · exact h.pushNil
  · exact h.pushNew _ _

theorem pushBool (val : Bool) : Grows vm₀ (vm.pushBool val) := by
  unfold Vm.pushBool
  split_ifs
  · exact h.pushNew _ _
  · exact h.pushNil

theorem onStack {f : List Slice → Except ScriptErr (List Slice)} (hf : Rearranges f)
    (hrun : vm.onStack f = .ok vm') : Grows vm₀ vm' := by
  simp only [Vm.onStack, bind_eq_ok, Except.ok.injEq] at hrun
  obtain ⟨dstack, hstack, rfl⟩ := hrun
  exact { h with dstack := fun so hso => h.dstack so (hf hstack hso) }

end

end Grows

/-! ## Opcodes -/

/-- What is returned, if anything is, has new arrays at most. -/
def Returns (vm₀ : Vm) (r : Except ScriptErr Vm) : Prop := ∀ ⦃vm'⦄, r = .ok vm' → Grows vm₀ vm'

section Returns

variable {vm₀ vm : Vm}

theorem Returns.ok (h : Grows vm₀ vm) : Returns vm₀ (.ok vm) := fun _ hvm => Except.ok.inj hvm ▸ h

/-- Two steps. -/
theorem Returns.bind {α : Type} {x : Except ScriptErr α} {f : α → Except ScriptErr Vm}
    (h : ∀ a, x = .ok a → Returns vm₀ (f a)) : Returns vm₀ (x >>= f) := fun _ hrun => by
  obtain ⟨a, ha, hrun⟩ := bind_eq_ok.1 hrun
  exact h a ha hrun

/-- An opcode function whose results all grow the memory. -/
theorem keeps_of_returns {f : Opfunc}
    (h : ∀ {cfg pop vm₀ vm}, vm₀.heap.Fits pop.data → Grows vm₀ vm →
    Returns vm₀ (f cfg pop vm)) : Keeps f := fun _ _ _ _ _ hdata hgrows => @h _ _ _ _ hdata hgrows _

end Returns

theorem keeps_of_error {e : EngineConfig → Instruction → Vm → ScriptErr} :
    Keeps fun cfg pop vm => .error (e cfg pop vm) :=
  keeps_of_returns fun _ _ => nofun

/-- A rearrangement of the stack. -/
theorem keeps_onStack {f : List Slice → Except ScriptErr (List Slice)} (hf : Rearranges f) :
    Keeps fun _ _ vm => vm.onStack f := fun _ _ _ _ _ _ h hrun => h.onStack hf hrun

theorem keeps_opcodeFalse : Keeps opcodeFalse := keeps_of_returns fun _ h => .ok h.pushNil

theorem keeps_opcodePushData : Keeps opcodePushData :=
  keeps_of_returns fun hdata h => .ok (h.pushByteArray (hdata.of_isPrefix h.heap))

theorem keeps_pushInt (n : Instruction → Vm → ℤ) :
    Keeps fun _ pop vm => .ok (vm.pushInt (n pop vm)) :=
  keeps_of_returns fun _ h => .ok (h.pushInt _)

theorem keeps_opcodeNop : Keeps opcodeNop := keeps_of_returns fun _ h => .bind fun _ _ => .ok h

theorem keeps_pushCond (taken : Bool) : Keeps (pushCond taken) := by
  refine keeps_of_returns fun _ h => ?_
  unfold pushCond
  split_ifs
  · exact .bind fun _ hpop => .ok { h.popBool hpop with }
  · exact .ok { h with }

theorem keeps_opcodeElse : Keeps opcodeElse := by
  refine keeps_of_returns fun _ h => ?_
  unfold opcodeElse
  split <;> first | exact .ok { h with } | exact nofun

theorem keeps_opcodeEndif : Keeps opcodeEndif := by
  refine keeps_of_returns fun _ h => ?_
  unfold opcodeEndif
  split <;> first | exact .ok { h with } | exact nofun

theorem keeps_opcodeVerify : Keeps opcodeVerify := by
  refine keeps_of_returns fun _ h => .bind fun _ hpop => ?_
  exact .bind fun _ _ => .ok (h.popBool hpop)

/-- An opcode and its verifying form. -/
theorem Keeps.thenVerify {f : Opfunc} (hf : Keeps f) : Keeps (thenVerify f) :=
  keeps_of_returns fun hdata h => .bind fun _ hfirst _ hverify =>
    keeps_opcodeVerify hdata (hf hdata h hfirst) hverify

theorem keeps_opcodeCheckLockTimeVerify : Keeps opcodeCheckLockTimeVerify := by
  refine keeps_of_returns fun _ h => ?_
  unfold opcodeCheckLockTimeVerify
  split_ifs
  · exact .bind fun _ _ => .ok h
  · iterate 4 refine .bind fun _ _ => ?_
    exact .ok h

theorem keeps_opcodeCheckSequenceVerify : Keeps opcodeCheckSequenceVerify := by
  refine keeps_of_returns fun _ h => ?_
  unfold opcodeCheckSequenceVerify
  split_ifs
  · exact .bind fun _ _ => .ok h
  · iterate 2 refine .bind fun _ _ => ?_
    dsimp only
    split_ifs
    · exact .ok h
    · iterate 3 refine .bind fun _ _ => ?_
      exact .ok h

theorem keeps_opcodeToAltStack : Keeps opcodeToAltStack := by
  refine keeps_of_returns fun _ h => .bind fun _ hpop => ?_
  obtain ⟨h1, hso⟩ := h.popByteArray hpop
  exact .ok { h1 with astack := forall_mem_cons.2 ⟨hso, h1.astack⟩ }

theorem keeps_opcodeFromAltStack : Keeps opcodeFromAltStack := by
  refine keeps_of_returns fun _ h => ?_
  unfold opcodeFromAltStack
  split
  · exact nofun
  next so astack hstack =>
    have hfits := h.astack
    rw [hstack] at hfits
    obtain ⟨hso, hrest⟩ := forall_mem_cons.1 hfits
    exact .ok { h with dstack := forall_mem_cons.2 ⟨hso, h.dstack⟩, astack := hrest }

theorem keeps_opcodeIfDup : Keeps opcodeIfDup := by
  refine keeps_of_returns fun _ h => .bind fun so hpeek => ?_
  split_ifs
  · exact .ok (h.pushByteArray (h.dstack so (mem_of_peek hpeek)))
  · exact .ok h

theorem keeps_onStackAt {f : List Slice → ℤ → Except ScriptErr (List Slice)}
    (hf : ∀ n, Rearranges (f · n)) :
    Keeps (onStackAt f) :=
  keeps_of_returns fun _ h => .bind fun _ hpop _ => (h.popInt hpop).onStack (hf _)

theorem keeps_opcodeSubstr : Keeps opcodeSubstr := by
  refine keeps_of_returns fun _ h => .bind fun ⟨v0, vm1⟩ hpop1 => .bind fun ⟨v1, vm2⟩ hpop2 => ?_
  refine .bind fun ⟨a, vm3⟩ hpop3 vm' hrun => ?_
  obtain ⟨h3, ha⟩ := ((h.popInt hpop1).popInt hpop2).popByteArray hpop3
  dsimp only at hrun
  split_ifs at hrun
  all_goals simp only [bind_eq_ok, rejectIf_eq_ok, exists_const, Except.ok.injEq] at hrun
  · exact hrun ▸ h3.pushNil
  · obtain ⟨-, -, -, -, rfl⟩ := hrun
    exact h3.pushNil
  · obtain ⟨hneg, hbound₀, hbound1, horder, rfl⟩ := hrun
    have := ha.1
    exact h3.pushByteArray (ha.sub (by omega) (by omega))

theorem keeps_opcodeLeft : Keeps opcodeLeft := by
  refine keeps_of_returns fun _ h => .bind fun ⟨v0, vm1⟩ hpop1 =>
    .bind fun ⟨a, vm2⟩ hpop2 vm' hrun => ?_
  obtain ⟨h2, ha⟩ := (h.popInt hpop1).popByteArray hpop2
  dsimp only at hrun
  split_ifs at hrun
  all_goals simp only [bind_eq_ok, rejectIf_eq_ok, exists_const, Except.ok.injEq] at hrun
  · exact hrun ▸ h2.pushNil
  · obtain ⟨-, -, rfl⟩ := hrun
    exact h2.pushNil
  · obtain ⟨hneg, hbound, rfl⟩ := hrun
    have := ha.1
    exact h2.pushByteArray (ha.sub (by omega) (by omega))

theorem keeps_opcodeRight : Keeps opcodeRight := by
  refine keeps_of_returns fun _ h => .bind fun ⟨v0, vm1⟩ hpop1 =>
    .bind fun ⟨a, vm2⟩ hpop2 vm' hrun => ?_
  obtain ⟨h2, ha⟩ := (h.popInt hpop1).popByteArray hpop2
  dsimp only at hrun
  split_ifs at hrun
  all_goals simp only [bind_eq_ok, rejectIf_eq_ok, exists_const, Except.ok.injEq] at hrun
  · exact hrun ▸ h2.pushNil
  · obtain ⟨-, -, rfl⟩ := hrun
    exact h2.pushNil
  · obtain ⟨hneg, hbound, rfl⟩ := hrun
    exact h2.pushByteArray (ha.sub (by omega) ha.1)

theorem keeps_opcodeSize : Keeps opcodeSize :=
  keeps_of_returns fun _ h => .bind fun _ _ => .ok (h.pushInt _)

theorem keeps_opcodeEqual : Keeps opcodeEqual := by
  refine keeps_of_returns fun _ h => .bind fun _ hpop1 => .bind fun _ hpop2 => .ok ?_
  exact ((h.popByteArray hpop1).1.popByteArray hpop2).1.pushBool _

theorem keeps_unaryNum (f : ℤ → ℤ) : Keeps (unaryNum f) :=
  keeps_of_returns fun _ h => .bind fun _ hpop => .ok ((h.popInt hpop).pushInt _)

theorem keeps_binaryNum (f : ℤ → ℤ → Except ScriptErr ℤ) : Keeps (binaryNum f) := by
  refine keeps_of_returns fun _ h => .bind fun _ hpop1 => .bind fun _ hpop2 => ?_
  exact .bind fun _ _ => .ok (((h.popInt hpop1).popInt hpop2).pushInt _)

theorem keeps_opcodeWithin : Keeps opcodeWithin := by
  refine keeps_of_returns fun _ h => .bind fun _ hpop1 => .bind fun _ hpop2 => ?_
  exact .bind fun _ hpop3 => .ok ((((h.popInt hpop1).popInt hpop2).popInt hpop3).pushInt _)

theorem keeps_hashOp (hash : EngineEnv → List UInt8 → List UInt8) (sums : Bool) :
    Keeps (hashOp hash sums) :=
  keeps_of_returns fun _ h => .bind fun _ hpop => .ok ((h.popByteArray hpop).1.pushNew _ _)

theorem keeps_opcodeCheckSig : Keeps opcodeCheckSig := by
  refine keeps_of_returns fun _ h => .bind fun _ hpop1 => .bind fun _ hpop2 => ?_
  exact .bind fun _ _ => .ok (((h.popByteArray hpop1).1.popByteArray hpop2).1.pushBool _)

variable {cfg : EngineConfig} {pop : Instruction} {vm vm' : Vm}

theorem Grows.popMultiSig {vm₀ vm vm' : Vm} {keys sigs : List Slice} (h : Grows vm₀ vm)
    (hpop : popMultiSig cfg vm = .ok (keys, sigs, vm')) : Grows vm₀ vm' := by
  simp only [Script.popMultiSig, bind_eq_ok, rejectIf_eq_ok, exists_const, Except.ok.injEq,
    Prod.mk.injEq, Prod.exists] at hpop
  obtain ⟨n, vm1, hpop1, -, -, keys', vm2, hpop2, m, vm3, hpop3, -, -, sigs', vm4, hpop4, -, -,
    rfl⟩ := hpop
  have hcounted : Grows vm₀ { vm1 with numOps := vm1.numOps + (int32 n).toNat } :=
    { h.popInt hpop1 with }
  exact ((hcounted.popByteArrays hpop2).popInt hpop3).popByteArrays hpop4

theorem keeps_opcodeCheckMultiSig : Keeps opcodeCheckMultiSig := by
  refine keeps_of_returns fun _ h => .bind fun _ hpop => ?_
  exact .bind fun _ _ => .ok ((h.popMultiSig hpop).pushBool _)

theorem keeps_opcodeCheckSigAlt : Keeps opcodeCheckSigAlt := by
  refine keeps_of_returns fun _ h => .bind fun ⟨n, vm1⟩ hpop1 => ?_
  have h1 := h.popInt hpop1
  dsimp only
  split
  · exact .ok (h1.pushBool _)
  · exact .ok (h1.pushBool _)
  · refine .bind fun ⟨pk, vm2⟩ hpop2 => ?_
    have h2 := (h1.popByteArray hpop2).1
    split_ifs
    · exact .ok (h2.pushBool _)
    · exact .bind fun _ hpop3 => .bind fun _ _ => .ok ((h2.popByteArray hpop3).1.pushBool _)

/-- All opcodes but `OP_CAT` only make new arrays. -/
theorem keeps_opfunc {value : UInt8} (hvalue : value ≠ OP_CAT) : Keeps (opfunc value) := by
  have htable : ∀ entry ∈ opfuncs, entry.1 ≠ 126 → Keeps entry.2 := by
    simp only [opfuncs, forall_mem_cons, not_mem_nil, false_implies, implies_true, and_true]
    and_intros
    all_goals intro hne
    all_goals first
      | exact absurd rfl hne
      | exact keeps_unaryNum _
      | exact keeps_binaryNum _
      | exact keeps_hashOp _ _
      | exact keeps_of_error
      | exact keeps_pushInt _
      | exact keeps_pushCond _
      | exact keeps_onStack ((rearranges_dropNth _).times _)
      | exact keeps_onStack ((rearranges_pickN _).times _)
      | exact keeps_onStack ((rearranges_rollN _).times _)
      | exact keeps_onStack (rearranges_dropNth _)
      | exact keeps_onStack rearranges_tuck
      | exact keeps_onStackAt rearranges_pickN
      | exact keeps_onStackAt rearranges_rollN
      | exact (keeps_binaryNum _).thenVerify
      | exact keeps_opcodeFalse
      | exact keeps_opcodeElse
      | exact keeps_opcodeEndif
      | exact keeps_opcodeVerify
      | exact keeps_opcodeToAltStack
      | exact keeps_opcodeFromAltStack
      | exact keeps_opcodeIfDup
      | exact keeps_opcodeSubstr
      | exact keeps_opcodeLeft
      | exact keeps_opcodeRight
      | exact keeps_opcodeSize
      | exact keeps_opcodeEqual
      | exact keeps_opcodeEqual.thenVerify
      | exact keeps_opcodeWithin
      | exact keeps_opcodeCheckSig
      | exact keeps_opcodeCheckSig.thenVerify
      | exact keeps_opcodeCheckMultiSig
      | exact keeps_opcodeCheckMultiSig.thenVerify
      | exact keeps_opcodeCheckLockTimeVerify
      | exact keeps_opcodeCheckSequenceVerify
      | exact keeps_opcodeCheckSigAlt
      | exact keeps_opcodeCheckSigAlt.thenVerify
  unfold opfunc
  split
  next f hf =>
    obtain ⟨before, after, hmem, -⟩ := lookup_eq_some_iff.1 hf
    have hentry : (value.toNat, f) ∈ opfuncs := by
      rw [hmem]
      exact mem_append_right _ (mem_cons_self ..)
    exact htable _ hentry fun h => hvalue (UInt8.toNat_inj.1 h)
  · split_ifs
    · exact keeps_opcodePushData
    · exact keeps_pushInt _
    · exact keeps_opcodeNop
    · exact keeps_of_error

/-! ## `OP_CAT` -/

theorem opfunc_OP_CAT : opfunc OP_CAT = opcodeCat := rfl

/-- What `OP_CAT` comes to: an operand or nothing is pushed back, or one operand is appended to the
other. -/
theorem opcodeCat_cases (hrun : opcodeCat cfg pop vm = .ok vm') :
    ∃ a b rest, vm.dstack = a :: b :: rest ∧
      (((a.len = 0 ∨ b.len = 0) ∧ ∃ so ∈ [a, b, .nil], vm' = { vm with dstack := so :: rest }) ∨
      (0 < a.len ∧ 0 < b.len ∧ a.len + b.len ≤ MaxScriptElementSize ∧ vm' = { vm with
          heap := (vm.heap.append b a (cfg.env.growth b.cap (a.len + b.len))).1
          dstack := (vm.heap.append b a (cfg.env.growth b.cap (a.len + b.len))).2 :: rest })) := by
  unfold opcodeCat Vm.popByteArray at hrun
  rcases hstack : vm.dstack with _ | ⟨a, _ | ⟨b, rest⟩⟩
  · rw [hstack] at hrun
    cases hrun
  · rw [hstack] at hrun
    cases hrun
  rw [hstack] at hrun
  simp only [ok_bind] at hrun
  refine ⟨a, b, rest, rfl, ?_⟩
  split_ifs at hrun with ha hb hboth
  · cases hrun
    exact .inl ⟨.inl ha.1, b, by simp, rfl⟩
  · cases hrun
    exact .inl ⟨.inr hb.1, a, by simp, rfl⟩
  · cases hrun
    exact .inl ⟨.inl hboth.2, .nil, by simp, rfl⟩
  · simp only [bind_eq_ok, rejectIf_eq_ok, exists_const, Except.ok.injEq, not_lt] at hrun
    obtain ⟨hmax, rfl⟩ := hrun
    exact .inr ⟨by omega, by omega, hmax, rfl⟩

/-! ## Runs -/

/-- All slices of an engine and its transaction fit into their arrays. -/
structure WellFormed (cfg : EngineConfig) (vm : Vm) : Prop where
  dstack : ∀ so ∈ vm.dstack, vm.heap.Fits so
  astack : ∀ so ∈ vm.astack, vm.heap.Fits so
  saved : ∀ so ∈ vm.savedFirstStack, vm.heap.Fits so
  scripts : ∀ script ∈ vm.scripts, ∀ pop ∈ script, vm.heap.Fits pop.data
  signatureScripts : ∀ s ∈ cfg.tx.signatureScripts, vm.heap.Fits s
  pkScripts : ∀ s ∈ cfg.tx.pkScripts, vm.heap.Fits s

namespace WellFormed

variable {cfg : EngineConfig} {vm vm' : Vm} {pop : Instruction}

theorem grows (h : WellFormed cfg vm) : Grows vm vm := ⟨prefix_refl _, h.dstack, h.astack, rfl, rfl⟩

theorem of_grows (h : WellFormed cfg vm) (hgrows : Grows vm vm') : WellFormed cfg vm' where
  dstack := hgrows.dstack
  astack := hgrows.astack
  saved so hso := (h.saved so (hgrows.saved ▸ hso)).of_isPrefix hgrows.heap
  scripts script hscript pop hpop :=
    (h.scripts script (hgrows.scripts ▸ hscript) pop hpop).of_isPrefix hgrows.heap
  signatureScripts s hs := (h.signatureScripts s hs).of_isPrefix hgrows.heap
  pkScripts s hs := (h.pkScripts s hs).of_isPrefix hgrows.heap

/-- `OP_CAT` keeps the slices inside their arrays. -/
theorem opcodeCat (h : WellFormed cfg vm) (hrun : opcodeCat cfg pop vm = .ok vm') :
    WellFormed cfg vm' := by
  obtain ⟨a, b, rest, hstack, hcases⟩ := opcodeCat_cases hrun
  have hfits := h.dstack
  rw [hstack] at hfits
  obtain ⟨ha, hb, hrest⟩ : vm.heap.Fits a ∧ vm.heap.Fits b ∧ ∀ so ∈ rest, vm.heap.Fits so := by
    simpa only [forall_mem_cons] using hfits
  rcases hcases with ⟨-, so, hso, rfl⟩ | ⟨hpos, -, -, rfl⟩
  · refine { h with dstack := forall_mem_cons.2 ⟨?_, hrest⟩ }
    simp only [mem_cons, not_mem_nil, or_false] at hso
    rcases hso with rfl | rfl | rfl
    · exact ha
    · exact hb
    · exact Heap.fits_nil _
  · exact {
      dstack := forall_mem_cons.2 ⟨hb.append_result ha hpos, fun so hso =>
        hb.append ha hpos (hrest so hso)⟩
      astack := fun so hso => hb.append ha hpos (h.astack so hso)
      saved := fun so hso => hb.append ha hpos (h.saved so hso)
      scripts := fun script hscript pop hpop =>
        hb.append ha hpos (h.scripts script hscript pop hpop)
      signatureScripts := fun s hs => hb.append ha hpos (h.signatureScripts s hs)
      pkScripts := fun s hs => hb.append ha hpos (h.pkScripts s hs) }

/-- So does every opcode function. -/
theorem opfunc (h : WellFormed cfg vm) (hdata : vm.heap.Fits pop.data)
    (hrun : opfunc pop.opcode.value cfg pop vm = .ok vm') : WellFormed cfg vm' := by
  by_cases hvalue : pop.opcode.value = OP_CAT
  · rw [hvalue, opfunc_OP_CAT] at hrun
    exact h.opcodeCat hrun
  · exact h.of_grows (keeps_opfunc hvalue hdata h.grows hrun)

end WellFormed

/-- `executeOpcode` counts the opcode and runs it, or passes over it. -/
theorem executeOpcode_cases (hrun : executeOpcode cfg pop vm = .ok vm') : ∃ numOps,
      (vm.isBranchExecuting = false ∧ pop.opcode.isConditional = false ∧ vm' = { vm with numOps }) ∨
      ((vm.isBranchExecuting = true ∨ pop.opcode.isConditional = true) ∧
        opfunc pop.opcode.value cfg pop { vm with numOps } = .ok vm') := by
  simp only [executeOpcode, bind_eq_ok, rejectIf_eq_ok, exists_const] at hrun
  obtain ⟨-, -, vm1, hcount, hrun⟩ := hrun
  obtain ⟨numOps, rfl⟩ : ∃ numOps, vm1 = { vm with numOps } := by
    unfold countOp at hcount
    split_ifs at hcount
    · simp only [bind_eq_ok, rejectIf_eq_ok, exists_const, Except.ok.injEq] at hcount
      exact ⟨_, hcount.2.symm⟩
    · simp only [bind_eq_ok, rejectIf_eq_ok, exists_const, Except.ok.injEq] at hcount
      exact ⟨vm.numOps, hcount.2.symm⟩
  refine ⟨numOps, ?_⟩
  have hbranch : { vm with numOps }.isBranchExecuting = vm.isBranchExecuting := rfl
  rw [runOpcode, hbranch] at hrun
  split_ifs at hrun with hskip
  · cases hrun
    simp only [Bool.and_eq_true, Bool.not_eq_true'] at hskip
    exact .inl ⟨hskip.1, hskip.2, rfl⟩
  · simp only [bind_eq_ok, rejectIf_eq_ok, exists_const] at hrun
    refine .inr ⟨?_, hrun.2⟩
    by_contra hnot
    simp only [not_or, Bool.not_eq_true] at hnot
    exact hskip (by simpa using hnot)

variable {heap : Heap UInt8} {script scriptPubKey : Slice} {pops : List Instruction}

theorem fits_viewsFrom (hscript : heap.Fits script) {instrAt : ℕ → UInt8 → UInt8}
    {i : ℕ} {left : List UInt8} {pops : List ParsedOpcode} (hparse : Parses instrAt i left pops)
    (hleft : i + left.length ≤ script.len) :
    ∀ pop ∈ viewsFrom script i pops, heap.Fits pop.data := by
  induction hparse with
  | nil i => simp [viewsFrom]
  | cons hop hvalid hrest _ ih =>
    subst hrest
    simp only [length_cons, length_append] at hleft ih
    have hcap := hscript.1
    rw [viewsFrom]
    refine forall_mem_cons.2 ⟨?_, ?_⟩
    · dsimp only
      split_ifs
      · exact Heap.fits_nil _
      · exact hscript.sub (by omega) (by omega)
    · rw [← Nat.add_assoc] at ih
      exact ih (by omega)

/-- Parsed data lie inside the script. -/
theorem fits_parseViews (hscript : heap.Fits script)
    (hparse : parseViews heap script = .ok pops) : ∀ pop ∈ pops, heap.Fits pop.data := by
  unfold parseViews at hparse
  split at hparse
  next parsed hparsed =>
    cases hparse
    have hlen : 0 + (heap.read script).length ≤ script.len := by rw [hscript.length_read]; omega
    unfold parseScript at hparsed
    split_ifs at hparsed
    · exact fits_viewsFrom hscript (parses_of_parseLoop hparsed) hlen
    · exact fits_viewsFrom hscript (parses_of_parseLoop hparsed) hlen
  · cases hparse

namespace WellFormed

variable {cfg : EngineConfig} {vm vm' : Vm} {done : Bool} {pop : Instruction}

section

variable (h : WellFormed cfg vm)

include h

theorem executeOpcode (hdata : vm.heap.Fits pop.data)
    (hrun : executeOpcode cfg pop vm = .ok vm') : WellFormed cfg vm' := by
  obtain ⟨numOps, ⟨-, -, rfl⟩ | ⟨-, hop⟩⟩ := executeOpcode_cases hrun
  · exact { h with }
  · have hcounted : WellFormed cfg { vm with numOps } := { h with }
    exact hcounted.opfunc hdata hop

theorem checkErrorCondition {finalScript : Bool}
    (hrun : checkErrorCondition cfg finalScript vm = .ok vm') : WellFormed cfg vm' := by
  simp only [Script.checkErrorCondition, bind_eq_ok, rejectIf_eq_ok, exists_const, Except.ok.injEq,
    Prod.exists] at hrun
  obtain ⟨-, -, -, b, vm1, hpop, -, rfl⟩ := hrun
  exact h.of_grows (h.grows.popBool hpop)

theorem startRedeemScript (hrun : startRedeemScript cfg vm = .ok vm') : WellFormed cfg vm' := by
  simp only [Script.startRedeemScript, bind_eq_ok] at hrun
  obtain ⟨vm1, hcheck, hrun⟩ := hrun
  have h1 := h.checkErrorCondition hcheck
  split at hrun
  · cases hrun
  next script rest hsaved =>
    simp only [bind_eq_ok, Except.ok.injEq] at hrun
    obtain ⟨pops, hparse, rfl⟩ := hrun
    have hfits := h1.saved
    rw [hsaved] at hfits
    obtain ⟨hscript, hrest⟩ := forall_mem_cons.1 hfits
    refine { h1 with dstack := hrest, scripts := fun script' hmem => ?_ }
    rcases mem_append.1 hmem with hold | hnew
    · exact h1.scripts script' hold
    · rw [mem_singleton.1 hnew]
      exact fits_parseViews hscript hparse

theorem nextScript (hrun : nextScript cfg vm = .ok vm') : WellFormed cfg vm' := by
  unfold Script.nextScript at hrun
  split_ifs at hrun
  · cases hrun
    exact { h with saved := h.dstack }
  · have hmoved : WellFormed cfg { vm with scriptIdx := 2 } := { h with }
    exact hmoved.startRedeemScript hrun
  · cases hrun
    exact { h with }

theorem endScript (hrun : endScript cfg vm = .ok vm') : WellFormed cfg vm' := by
  simp only [Script.endScript, bind_eq_ok, rejectIf_eq_ok, exists_const, Except.ok.injEq] at hrun
  obtain ⟨-, vm1, hnext, rfl⟩ := hrun
  have hcleared : WellFormed cfg { vm with astack := [], numOps := 0, scriptOff := 0 } :=
    { h with astack := by simp }
  have h1 := hcleared.nextScript hnext
  unfold skipEmpty
  split_ifs
  · exact { h1 with }
  · exact { h1 with }

theorem advance (hrun : advance cfg vm = .ok (done, vm')) : WellFormed cfg vm' := by
  have hmoved : WellFormed cfg { vm with scriptOff := vm.scriptOff + 1 } := { h with }
  simp only [Script.advance, bind_eq_ok, rejectIf_eq_ok, exists_const] at hrun
  obtain ⟨-, hrun⟩ := hrun
  split_ifs at hrun
  · simp only [bind_eq_ok, Except.ok.injEq, Prod.mk.injEq] at hrun
    obtain ⟨vm1, hend, -, rfl⟩ := hrun
    exact hmoved.endScript hend
  · cases hrun
    exact hmoved

theorem currentOpcode (hpop : vm.currentOpcode = .ok pop) : vm.heap.Fits pop.data := by
  unfold Vm.currentOpcode at hpop
  split at hpop
  · cases hpop
  next pop' hget =>
    cases hpop
    obtain ⟨script, hscript, hinstr⟩ := Option.bind_eq_some_iff.1 hget
    exact h.scripts script (mem_of_getElem? hscript) pop (mem_of_getElem? hinstr)

/-- `Step` keeps the memory well formed. -/
theorem step (hrun : step cfg vm = .ok (done, vm')) : WellFormed cfg vm' := by
  simp only [Script.step, bind_eq_ok] at hrun
  obtain ⟨pop, hpop, vm1, hexec, hadvance⟩ := hrun
  exact (h.executeOpcode (h.currentOpcode hpop) hexec).advance hadvance

end

end WellFormed

/-- Parsed data of a new engine lie inside the script. -/
theorem parseNew_fits (hscript : heap.Fits script)
    (hparse : parseNew heap script = .ok pops) : ∀ pop ∈ pops, heap.Fits pop.data := by
  simp only [parseNew, bind_eq_ok, rejectIf_eq_ok, exists_const] at hparse
  exact fits_parseViews hscript hparse.2

/-- The scripts that an engine is given fit into their arrays. -/
structure InputFits (cfg : EngineConfig) (heap : Heap UInt8) (scriptPubKey : Slice) : Prop where
  scriptPubKey : heap.Fits scriptPubKey
  signatureScripts : ∀ s ∈ cfg.tx.signatureScripts, heap.Fits s
  pkScripts : ∀ s ∈ cfg.tx.pkScripts, heap.Fits s

/-- `NewEngine` starts with well formed memory. -/
theorem InputFits.newEngine {vm : Vm}
    (h : InputFits cfg heap scriptPubKey) (hnew : newEngine cfg heap scriptPubKey = .ok vm) :
    WellFormed cfg vm := by
  unfold Script.newEngine at hnew
  split at hnew
  · cases hnew
  next scriptSig hsig =>
    have hscriptSig := h.signatureScripts scriptSig (mem_of_getElem? hsig)
    simp only [bind_eq_ok, rejectIf_eq_ok, exists_const, Except.ok.injEq] at hnew
    obtain ⟨-, -, _, -, first, hfirst, second, hsecond, bip16, -, rfl⟩ := hnew
    refine ⟨by simp, by simp, by simp, ?_, h.signatureScripts, h.pkScripts⟩
    simp only [forall_mem_cons, not_mem_nil, false_implies, implies_true, and_true]
    exact ⟨parseNew_fits hscriptSig hfirst, parseNew_fits h.scriptPubKey hsecond⟩

/-- The states of an engine during `Execute`. -/
inductive Reachable (cfg : EngineConfig) (heap : Heap UInt8) (scriptPubKey : Slice) : Vm → Prop
  | start {vm : Vm} (hnew : newEngine cfg heap scriptPubKey = .ok vm) :
  Reachable cfg heap scriptPubKey vm
  | next {vm vm' : Vm} {done : Bool} (h : Reachable cfg heap scriptPubKey vm)
      (hstep : step cfg vm = .ok (done, vm')) : Reachable cfg heap scriptPubKey vm'

/-- Every machine that is reached has well formed memory. -/
theorem Reachable.wellFormed
    (hinput : InputFits cfg heap scriptPubKey) {vm : Vm} (h : Reachable cfg heap scriptPubKey vm) :
    WellFormed cfg vm := by
  induction h with
  | start hnew => exact hinput.newEngine hnew
  | next _ hstep ih => exact ih.step hstep

end Hcashd.Script
