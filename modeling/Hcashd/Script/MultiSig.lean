import Hcashd.Lib.Greedy
import Hcashd.Script.Execute

/-!
# `OP_CHECKMULTISIG`

The loop of `opcodeCheckMultiSig` goes through the keys once and counts down the keys and the
signatures that are left. It is the greedy scan of `Lib.Greedy` (`multiSigLoop_eq_scan`), so it
finds the keys for all signatures whenever there are such keys in the order of the signatures.
-/

namespace Hcashd.Script

open Lib List

variable {cfg : EngineConfig} {heap : Heap UInt8} {script : List ParsedOpcode} {hashType : UInt8}
  {sigInfo : ParsedSigInfo cfg.env.secp256k1.Signature} {S : Type}
  {signatures : List (ParsedSigInfo S)} {i : ℕ}

/-- Whether a signature verifies under a key: a turn of the loop for a signature that was not parsed
before. -/
def verification (cfg : EngineConfig) (heap : Heap UInt8) (script : List ParsedOpcode)
    (sig key : List UInt8) :
    Except ScriptErr Bool := do
  let (valid, _) ← multiSigTurn cfg heap script key { signature := sig }
  .ok valid

/-- The checks of a signature before it is parsed. -/
def checkEncodings (flags : ScriptFlags) (hashType : UInt8) (signature : List UInt8) :
    Except ScriptErr PUnit := do
  checkHashTypeEncoding flags hashType
  checkSignatureEncoding flags signature

/-- What is known about a signature in the loop: if it was parsed, then with this result. -/
def ParsedSigInfo.Consistent (sigInfo : ParsedSigInfo cfg.env.secp256k1.Signature) : Prop :=
  sigInfo.parsed = true → sigInfo.parsedSignature = cfg.parseSignature sigInfo.signature.dropLast ∧
    ∀ hashType ∈ sigInfo.signature.getLast?,
    checkEncodings cfg.flags hashType sigInfo.signature.dropLast = .ok ⟨⟩

theorem parseOnce_eq (hinfo : sigInfo.Consistent)
    (hlast : sigInfo.signature.getLast? = some hashType) :
    parseOnce cfg sigInfo hashType =
      (checkEncodings cfg.flags hashType sigInfo.signature.dropLast >>= fun _ =>
      .ok { sigInfo with
        parsed := true, parsedSignature := cfg.parseSignature sigInfo.signature.dropLast }) := by
  unfold parseOnce
  split_ifs with hparsed
  · obtain ⟨hsig, hok⟩ := hinfo hparsed
    rw [hok hashType hlast, ok_bind, ← hsig, ← hparsed]
  · simp only [checkEncodings, bind_assoc]

/-- One turn verifies one key against one signature. -/
theorem multiSigTurn_cases (hinfo : sigInfo.Consistent) (key : List UInt8) :
    (∃ e, multiSigTurn cfg heap script key sigInfo = .error e ∧
      verification cfg heap script sigInfo.signature key = .error e) ∨
    (∃ valid sigInfo', multiSigTurn cfg heap script key sigInfo = .ok (valid, sigInfo') ∧
      verification cfg heap script sigInfo.signature key = .ok valid ∧
      sigInfo'.signature = sigInfo.signature ∧ sigInfo'.Consistent) := by
  have hnew : ({ signature := sigInfo.signature } :
      ParsedSigInfo cfg.env.secp256k1.Signature).Consistent :=
    fun h => by cases h
  unfold verification multiSigTurn
  rcases hlast : sigInfo.signature.getLast? with _ | hashType
  · exact .inr ⟨false, sigInfo, rfl, rfl, rfl, hinfo⟩
  · simp only [parseOnce_eq hinfo hlast, parseOnce_eq hnew hlast]
    rcases hcheck : checkEncodings cfg.flags hashType sigInfo.signature.dropLast with e | _
    · exact .inl ⟨e, rfl, rfl⟩
    · have hdone : ∀ hashType' ∈ sigInfo.signature.getLast?,
          checkEncodings cfg.flags hashType' sigInfo.signature.dropLast = .ok ⟨⟩ := by
        rintro hashType' h
        rw [hlast, Option.mem_some_iff] at h
        rw [← h, hcheck]
      have hleft : ({ sigInfo with
            parsed := true, parsedSignature := cfg.parseSignature sigInfo.signature.dropLast } :
          ParsedSigInfo cfg.env.secp256k1.Signature).Consistent := fun _ => ⟨rfl, hdone⟩
      simp only [ok_bind]
      rcases hparse : cfg.parseSignature sigInfo.signature.dropLast with _ | parsedSig
      all_goals rw [hparse] at hleft
      · exact .inr ⟨false, _, rfl, rfl, rfl, hleft⟩
      · rcases hverify : verifyUnder cfg heap script hashType parsedSig key with e | valid
        all_goals simp only [hverify]
        · exact .inl ⟨e, rfl, rfl⟩
        · exact .inr ⟨valid, _, rfl, rfl, rfl, hleft⟩

theorem drop_signatures_eq_cons (h : i < signatures.length) :
    (signatures.map (·.signature)).drop i =
      signatures[i].signature :: (signatures.map (·.signature)).drop (i + 1) := by
  rw [drop_eq_getElem_cons (by rwa [length_map]), getElem_map]

/-- The loop is a scan over the keys. -/
theorem multiSigLoop_eq_scan (pubKeys : List (List UInt8))
    (numPubKeys numSignatures pubKeyIdx signatureIdx : ℕ)
    (signatures : List (ParsedSigInfo cfg.env.secp256k1.Signature))
    (hkeys : numPubKeys + pubKeyIdx = pubKeys.length + 1)
    (hsigs : numSignatures + signatureIdx = signatures.length)
    (hinfos : ∀ info ∈ signatures, info.Consistent) :
    multiSigLoop cfg heap script pubKeys numPubKeys numSignatures pubKeyIdx signatureIdx
      signatures =
      scan (verification cfg heap script) ((signatures.map (·.signature)).drop signatureIdx)
        (pubKeys.drop pubKeyIdx) := by
  induction numPubKeys generalizing numSignatures pubKeyIdx signatureIdx signatures with
  | zero =>
    rcases numSignatures with _ | numSignatures
    · rw [drop_eq_nil_of_le (by rw [length_map]; omega), multiSigLoop, scan]
    · have hnokey : pubKeys.drop pubKeyIdx = [] := drop_eq_nil_of_le (by omega)
      rw [drop_signatures_eq_cons (show signatureIdx < signatures.length by omega), hnokey,
        multiSigLoop, scan]
  | succ numPubKeys ih =>
    rcases numSignatures with _ | numSignatures
    · rw [drop_eq_nil_of_le (by rw [length_map]; omega), multiSigLoop, scan]
    have hsig : signatureIdx < signatures.length := by omega
    rw [drop_signatures_eq_cons hsig, multiSigLoop]
    rcases Nat.eq_zero_or_pos numPubKeys with rfl | hpos
    · have hnokey : pubKeys.drop pubKeyIdx = [] := drop_eq_nil_of_le (by omega)
      rw [hnokey, if_pos (by omega), scan]
    have hkey : pubKeyIdx < pubKeys.length := by omega
    have hlens :
        (pubKeys.drop (pubKeyIdx + 1)).length <
          ((signatures.map (·.signature)).drop (signatureIdx + 1)).length ↔
        numPubKeys < numSignatures + 1 := by
      rw [length_drop, length_drop, length_map]
      omega
    rw [drop_eq_getElem_cons hkey, scan, if_congr hlens rfl rfl]
    refine if_congr Iff.rfl rfl ?_
    rw [getElem?_eq_getElem hsig, getElem?_eq_getElem hkey]
    dsimp only
    rcases multiSigTurn_cases (hinfos _ (getElem_mem hsig)) pubKeys[pubKeyIdx] with
      ⟨e, hturn, hverify⟩ | ⟨valid, sigInfo', hturn, hverify, hsame, hleft⟩
    · rw [hturn, hverify]
      rfl
    · rw [hturn, hverify, ok_bind, ok_bind]
      -- The signature that was parsed takes its own place.
      have hmap : (signatures.set signatureIdx sigInfo').map (·.signature) =
          signatures.map (·.signature) := by
        rw [map_set, hsame, ← map_set, set_getElem_self]
      have hinfos' : ∀ info ∈ signatures.set signatureIdx sigInfo', info.Consistent :=
        fun info hinfo =>
        (mem_or_eq_of_mem_set hinfo).elim (hinfos info) fun h => h ▸ hleft
      have hlen : (signatures.set signatureIdx sigInfo').length = signatures.length := length_set
      cases valid with
      | false =>
        rw [if_neg (by simp), if_neg (by simp),
          ih (numSignatures + 1) (pubKeyIdx + 1) signatureIdx _ (by omega)
          (by omega) hinfos', hmap, drop_signatures_eq_cons hsig]
      | true =>
        rw [if_pos rfl, if_pos rfl,
          ih numSignatures (pubKeyIdx + 1) (signatureIdx + 1) _ (by omega) (by omega) hinfos',
          hmap]

/-- So is the check of the opcode. -/
theorem checkMultiSig_eq_scan (vm : Vm) (pubKeys signatures : List (List UInt8)) :
    checkMultiSig cfg vm pubKeys signatures = (vm.subScript >>= fun script =>
      scan (verification cfg vm.heap (signatures.foldl removeOpcodeByData script)) signatures
        pubKeys) := by
  unfold checkMultiSig
  congr 1
  funext script
  rw [multiSigLoop_eq_scan pubKeys (pubKeys.length + 1) signatures.length 0 0 _ rfl (by simp)]
  · simp [Function.comp_def]
  · intro info hinfo
    obtain ⟨signature, -, rfl⟩ := mem_map.1 hinfo
    intro h
    cases h

/-! ## Which signatures verify -/

/-- The flags ask for no encoding. -/
def NoEncodings (flags : ScriptFlags) : Prop :=
  flags.verifyDERSignatures = false ∧ flags.verifyLowS = false ∧ flags.verifyStrictEncoding = false

/-- The signature has a hash type, its hash can be computed, it and the key parse, and it
verifies. -/
def Valid (cfg : EngineConfig) (heap : Heap UInt8) (script : List ParsedOpcode)
    (sig key : List UInt8) : Prop :=
  ∃ hashType ∈ sig.getLast?, ∃ parsedSig ∈ cfg.parseSignature sig.dropLast,
    ∃ parsedKey ∈ cfg.env.secp256k1.parsePubKey key, ∃ hash,
    calcSignatureHash cfg heap script hashType = .ok hash ∧
      cfg.env.secp256k1.verify parsedKey hash parsedSig = true

/-- The hash of a signature can be computed, if it has a hash type. -/
def Hashes (cfg : EngineConfig) (heap : Heap UInt8) (script : List ParsedOpcode)
    (sig : List UInt8) : Prop :=
  ∀ hashType ∈ sig.getLast?, ∃ hash, calcSignatureHash cfg heap script hashType = .ok hash

theorem checkEncodings_eq_ok {flags : ScriptFlags} (hflags : NoEncodings flags) (hashType : UInt8)
    (signature : List UInt8) : checkEncodings flags hashType signature = .ok ⟨⟩ := by
  obtain ⟨hder, hlow, hstrict⟩ := hflags
  simp [checkEncodings, checkHashTypeEncoding, checkSignatureEncoding, hder, hlow, hstrict]

/-- What a verification can give. -/
theorem verification_cases (hflags : NoEncodings cfg.flags) (heap : Heap UInt8)
    (script : List ParsedOpcode) (sig key : List UInt8) :
    (verification cfg heap script sig key = .error .sighashSingleIdx ∧
      ¬ Hashes cfg heap script sig) ∨
    (verification cfg heap script sig key = .ok true ∧ Valid cfg heap script sig key) ∨
    (verification cfg heap script sig key = .ok false ∧ ¬ Valid cfg heap script sig key) := by
  have hnew : ({ signature := sig } : ParsedSigInfo cfg.env.secp256k1.Signature).Consistent :=
    fun h => by cases h
  unfold verification multiSigTurn
  rcases hlast : sig.getLast? with _ | hashType
  · exact .inr (.inr ⟨rfl, by simp [Valid, hlast]⟩)
  simp only [parseOnce_eq hnew hlast, checkEncodings_eq_ok hflags, ok_bind]
  rcases hparse : cfg.parseSignature sig.dropLast with _ | parsedSig
  · exact .inr (.inr ⟨rfl, by simp [Valid, hparse]⟩)
  have hpub : checkPubKeyEncoding cfg.flags key =
      .ok ⟨⟩ := by simp [checkPubKeyEncoding, hflags.2.2]
  simp only [verifyUnder, hpub, ok_bind]
  rcases hkey : cfg.env.secp256k1.parsePubKey key with _ | parsedKey
  · exact .inr (.inr ⟨rfl, by simp [Valid, hkey]⟩)
  rcases hhash : calcSignatureHash cfg heap script hashType with e | hash
  · have herror := hhash
    simp only [calcSignatureHash, bind_eq_error, rejectIf_eq_error, reduceCtorEq, and_false,
      exists_const, or_false] at herror
    refine .inl ⟨by rw [herror.2]; rfl, fun h => ?_⟩
    obtain ⟨hash, hok⟩ := h hashType hlast
    rw [hhash] at hok
    cases hok
  have hvalid :
      Valid cfg heap script sig key ↔ cfg.env.secp256k1.verify parsedKey hash parsedSig = true := by
    simp [Valid, hlast, hparse, hkey, hhash]
  rcases hverify : cfg.env.secp256k1.verify parsedKey hash parsedSig with _ | _
  · exact .inr (.inr ⟨by simp [ok_bind, hverify], by simp [hvalid, hverify]⟩)
  · exact .inr (.inl ⟨by simp [ok_bind, hverify], by simp [hvalid, hverify]⟩)

section

variable (hflags : NoEncodings cfg.flags)
include hflags

/-- It accepts valid signatures only. -/
theorem accepts_verification_iff (sig key : List UInt8) :
    Accepts (verification cfg heap script) sig key ↔ Valid cfg heap script sig key := by
  unfold Accepts
  rcases verification_cases hflags heap script sig key with ⟨h, hhash⟩ | ⟨h, hvalid⟩ | ⟨h, hvalid⟩
  · rw [h]
    refine iff_of_false (by simp) ?_
    rintro ⟨hashType, hlast, _, -, _, -, hash, hok, -⟩
    refine hhash fun hashType' hlast' => ?_
    rw [Option.mem_unique hlast' hlast]
    exact ⟨hash, hok⟩
  · exact iff_of_true h hvalid
  · rw [h]
    exact iff_of_false (by simp) hvalid

theorem not_accepts_of_error {sig key : List UInt8} {e : ScriptErr}
    (h : verification cfg heap script sig key = .error e) (key' : List UInt8) :
    ¬ Accepts (verification cfg heap script) sig key' := by
  rw [accepts_verification_iff hflags]
  rintro ⟨hashType, hlast, _, -, _, -, hash, hok, -⟩
  rcases verification_cases hflags heap script sig key with ⟨-, hhash⟩ | ⟨h', -⟩ | ⟨h', -⟩
  · refine hhash fun hashType' hlast' => ?_
    rw [Option.mem_unique hlast' hlast]
    exact ⟨hash, hok⟩
  · rw [h] at h'
    cases h'
  · rw [h] at h'
    cases h'

end

/-! ## The opcode -/

variable {vm vm' : Vm}

theorem popByteArray_frame {so : Slice} (h : vm.popByteArray = .ok (so, vm')) :
    vm' = { vm with dstack := vm'.dstack } := by
  unfold Vm.popByteArray at h
  split at h
  · cases h
  · cases h
    rfl

theorem popInt_frame {maxLen : ℕ} {n : ℤ} (h : vm.popInt cfg maxLen = .ok (n, vm')) :
    vm' = { vm with dstack := vm'.dstack } := by
  simp only [Vm.popInt, bind_eq_ok, Except.ok.injEq, Prod.mk.injEq, Prod.exists] at h
  obtain ⟨so, vm1, hpop, _, -, rfl, rfl⟩ := h
  exact popByteArray_frame hpop

theorem popByteArrays_frame {n : ℕ} {sos : List Slice} (h : vm.popByteArrays n = .ok (sos, vm')) :
    vm' = { vm with dstack := vm'.dstack } := by
  induction n generalizing vm vm' sos with
  | zero =>
    cases h
    rfl
  | succ n ih =>
    simp only [Vm.popByteArrays, bind_eq_ok, Except.ok.injEq, Prod.mk.injEq, Prod.exists] at h
    obtain ⟨so, vm1, hpop, rest, vm2, hrest, -, rfl⟩ := h
    rw [ih hrest, popByteArray_frame hpop]

/-- The answer can be read off the stack. -/
theorem pushBool_injective (vm : Vm) : Function.Injective vm.pushBool := by
  intro b b' h
  have hheap := congrArg (fun vm => vm.heap.length) h
  cases b <;> cases b' <;> simp [Vm.pushBool, Vm.pushNew, Vm.pushByteArray, Heap.alloc] at hheap ⊢

/-- The opcode pushes true exactly when all signatures can be assigned to keys that they verify
under, in order, and false otherwise if their hashes can be computed. It never reads beyond its
lists. -/
theorem opcodeCheckMultiSig_iff_assigns {cfg : EngineConfig} (hflags : NoEncodings cfg.flags)
    {keys sigs : List Slice} (hpop : popMultiSig cfg vm = .ok (keys, sigs, vm'))
    {script : List ParsedOpcode} (hscript : vm.subScript = .ok script) (pop : Instruction) :
    let pubKeys := keys.map vm.heap.read
    let signatures := sigs.map vm.heap.read
    let signed := signatures.foldl removeOpcodeByData script
    let found := Assigns (Valid cfg vm.heap signed) signatures pubKeys
    let result := opcodeCheckMultiSig cfg pop vm
    result ≠ .error .panic ∧ (result = .ok (vm'.pushBool true) ↔ found) ∧
      ((∀ sig ∈ signatures, Hashes cfg vm.heap signed sig) → ¬ found →
        result = .ok (vm'.pushBool false)) := by
  intro pubKeys signatures signed found result
  have hframe : vm' = { vm with dstack := vm'.dstack, numOps := vm'.numOps } := by
    simp only [popMultiSig, bind_eq_ok, rejectIf_eq_ok, exists_const, Except.ok.injEq,
      Prod.mk.injEq, Prod.exists] at hpop
    obtain ⟨n, vm1, h1, -, -, keys', vm2, h2, m, vm3, h3, -, -, sigs', vm4, h4, -, -, rfl⟩ := hpop
    rw [popByteArrays_frame h4, popInt_frame h3, popByteArrays_frame h2, popInt_frame h1]
  have hheap : vm'.heap = vm.heap := by rw [hframe]
  have hscript' : vm'.subScript = .ok script := by rw [hframe]; exact hscript
  have hresult :
      result = (scan (verification cfg vm.heap signed) signatures pubKeys >>= fun success =>
      .ok (vm'.pushBool success)) := by
    simp only [result, opcodeCheckMultiSig, hpop, ok_bind, checkMultiSig_eq_scan, hscript', hheap]
    rfl
  have hfound : found ↔ scan (verification cfg vm.heap signed) signatures pubKeys = .ok true := by
    have hrel : Accepts (verification cfg vm.heap signed) = Valid cfg vm.heap signed :=
      funext fun sig => funext fun key => propext (accepts_verification_iff hflags sig key)
    rw [scan_eq_ok_true fun _ _ _ h => not_accepts_of_error hflags h, hrel]
    exact assigns_iff_sublistForall₂
  refine ⟨?_, ?_, fun hhashes hnot => ?_⟩
  · -- The tests of the scan do not panic.
    rw [hresult, Ne, bind_eq_error]
    rintro (h | ⟨success, -, h⟩)
    · obtain ⟨sig, -, key, -, htest⟩ := scan_eq_error h
      rcases verification_cases hflags vm.heap signed sig key with ⟨h', -⟩ | ⟨h', -⟩ | ⟨h', -⟩
      all_goals
        rw [htest] at h'
        cases h'
    · cases h
  · rw [hfound, hresult, bind_eq_ok]
    constructor
    · rintro ⟨success, hscan, hpush⟩
      rw [hscan, pushBool_injective vm' (Except.ok.inj hpush)]
    · exact fun hscan => ⟨true, hscan, rfl⟩
  · obtain ⟨success, hscan⟩ :=
      exists_scan_eq_ok (verification cfg vm.heap signed) signatures pubKeys
      fun sig hsig key _ => by
        rcases verification_cases hflags vm.heap signed sig key with ⟨-, h⟩ | ⟨h, -⟩ | ⟨h, -⟩
        · exact absurd (hhashes sig hsig) h
        · exact ⟨_, h⟩
        · exact ⟨_, h⟩
    cases success with
    | true => exact absurd (hfound.2 hscan) hnot
    | false => rw [hresult, hscan, ok_bind]

/-! ## An example -/

/-- Three keys and signatures for the second and the third, the last key on top. -/
def multiSigVm : Vm where
  heap := [[3, 9, 8, 7, 2, 9, 1, 8, 1]]
  scripts := [[], []]
  dstack := [⟨0, 0, 1, 1⟩, ⟨0, 1, 1, 1⟩, ⟨0, 2, 1, 1⟩, ⟨0, 3, 1, 1⟩, ⟨0, 4, 1, 1⟩, ⟨0, 5, 2, 2⟩,
    ⟨0, 7, 2, 2⟩]

/-- The signatures are found to be those of the first two keys. -/
theorem opcodeCheckMultiSig_multiSigVm :
    NoEncodings sampleConfig.flags ∧
    opcodeCheckMultiSig sampleConfig ⟨opcodeArray 174, .nil⟩ multiSigVm =
      .ok ({ multiSigVm with dstack := [], numOps := 3 }.pushBool true) := by
  have hflags : NoEncodings sampleConfig.flags := ⟨rfl, rfl, rfl⟩
  have hpop : popMultiSig sampleConfig multiSigVm = .ok ([⟨0, 1, 1, 1⟩, ⟨0, 2, 1, 1⟩, ⟨0, 3, 1, 1⟩],
      [⟨0, 5, 2, 2⟩, ⟨0, 7, 2, 2⟩], { multiSigVm with dstack := [], numOps := 3 }) := rfl
  have hscript : multiSigVm.subScript = .ok [] := rfl
  have hfound :
      Assigns (Valid sampleConfig multiSigVm.heap []) [[9, 1], [8, 1]] [[9], [8], [7]] := by
    refine ⟨Fin.castLE (by decide), Fin.strictMono_castLE _, Fin.forall_fin_two.2 ⟨?_, ?_⟩⟩
    · exact ⟨1, rfl, [9], rfl, [9], rfl, [], rfl, rfl⟩
    · exact ⟨1, rfl, [8], rfl, [8], rfl, [], rfl, rfl⟩
  exact ⟨hflags,
    (opcodeCheckMultiSig_iff_assigns hflags hpop hscript ⟨opcodeArray 174, .nil⟩).2.1.2 hfound⟩

end Hcashd.Script
