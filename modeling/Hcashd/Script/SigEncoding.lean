import Hcashd.Lib.Der
import Hcashd.Script.Parse

/-!
# The encoding of signatures

`checkSignatureEncoding` of `txscript/engine.go`: the check that a signature is in the distinguished
encoding rules. The lengths of the two integers stand in the bytes that are checked, and the offsets
of everything else are computed from them. A length byte of the first integer that ends where the
length byte of the second would stand is not rejected, and the second is read beyond the end
(`Overruns`). On all other bytes the check decides whether they encode two integers, where zero
counts as one (`checkSignatureEncoding_eq_ok`).
-/

namespace Hcashd.Script

open Lib List

/-- `ScriptFlags`, a field for each bit. -/
structure ScriptFlags where
  bip16 : Bool := false
  strictMultiSig : Bool := false
  discourageUpgradableNops : Bool := false
  verifyCheckLockTimeVerify : Bool := false
  verifyCheckSequenceVerify : Bool := false
  verifyCleanStack : Bool := false
  verifyDERSignatures : Bool := false
  verifyLowS : Bool := false
  verifyMinimalData : Bool := false
  verifySigPushOnly : Bool := false
  verifyStrictEncoding : Bool := false
  deriving DecidableEq, Repr

/-- `halfOrder`: half of the order of secp256k1. -/
def halfOrder : ℕ := 0xFFFFFFFFFFFFFFFFFFFFFFFFFFFFFFFEBAAEDCE6AF48A03BBFD25E8CD0364141 >>> 1

/-- `bs[i]`. -/
def byteAt (bs : List UInt8) (i : ℕ) : Except ScriptErr UInt8 := match bs[i]? with
  | none => .error .panic
  | some b => .ok b

/-- The checks on the lengths of a signature, up to the length of the second integer. The lengths of
the two integers are returned. -/
def signatureLengths (sig : List UInt8) : Except ScriptErr (ℕ × ℕ) := do
  rejectIf (sig.length < 8) (.malformedSignature "too short")
  rejectIf (72 < sig.length) (.malformedSignature "too long")
  rejectIf ((← byteAt sig 0) ≠ 0x30) (.malformedSignature "format has wrong type")
  rejectIf ((← byteAt sig 1).toNat ≠ sig.length - 2) (.malformedSignature "bad length")
  let rLen := (← byteAt sig 3).toNat
  rejectIf (sig.length < rLen + 5) (.malformedSignature "S out of bounds")
  let sLen := (← byteAt sig (rLen + 5)).toNat
  rejectIf (rLen + sLen + 6 ≠ sig.length) (.malformedSignature "invalid R length")
  pure (rLen, sLen)

/-- Whether a number has a zero byte that it does not need. -/
def hasNullByte (sig : List UInt8) (off len : ℕ) : Except ScriptErr Bool :=
  if len ≤ 1 then .ok false
  else do
    let first ← byteAt sig off
    if first ≠ 0 then .ok false
    else do
      let second ← byteAt sig (off + 1)
      .ok (second &&& 0x80 = 0)

/-- The checks on one of the two integers, whose `len` bytes start at `off`. -/
def checkInteger (marker name : String) (sig : List UInt8) (off len : ℕ) :
    Except ScriptErr PUnit := do
  rejectIf ((← byteAt sig (off - 2)) ≠ 0x02)
    (.malformedSignature ("missing " ++ marker ++ " integer marker"))
  rejectIf (len = 0) (.malformedSignature (name ++ " length is zero"))
  rejectIf ((← byteAt sig off) &&& 0x80 ≠ 0) (.malformedSignature (name ++ " value is negative"))
  rejectIf ((← hasNullByte sig off len) = true)
    (.malformedSignature ("invalid " ++ name ++ " value"))

/-- The checks on the two integers, and on the value of the second. -/
def checkIntegers (flags : ScriptFlags) (sig : List UInt8) (rLen sLen : ℕ) :
    Except ScriptErr PUnit := do
  checkInteger "first" "R" sig 4 rLen
  checkInteger "second" "S" sig (rLen + 6) sLen
  rejectIf (flags.verifyLowS = true ∧ halfOrder < ofBeBytes ((sig.drop (rLen + 6)).take sLen))
    .invalidLowSSignature

/-- `checkSignatureEncoding`: a DER signature, with a low `S` if asked for. -/
def checkSignatureEncoding (flags : ScriptFlags) (sig : List UInt8) : Except ScriptErr PUnit :=
  if !flags.verifyDERSignatures && !flags.verifyLowS && !flags.verifyStrictEncoding then .ok ⟨⟩
  else do
    let (rLen, sLen) ← signatureLengths sig
    checkIntegers flags sig rLen sLen

/-! ## What a signature is -/

/-- The contents of two integers after a marker each, with the lengths of everything. -/
def framed (m₁ m₂ : UInt8) (R S : List UInt8) : List UInt8 :=
  0x30 :: UInt8.ofNat (R.length + S.length + 4) ::
    ([m₁, UInt8.ofNat R.length] ++ R ++ [m₂, UInt8.ofNat S.length] ++ S)

/-- A sequence of two integers, given by their contents: `0x30 len 0x02 rLen R 0x02 sLen S`. -/
def derSequence (R S : List UInt8) : List UInt8 := framed 0x02 0x02 R S

/-- The strict encoding of two integers, in 8 to 72 bytes. -/
def Encodes (sig : List UInt8) (r s : ℕ) : Prop :=
  ∃ R S, DerInteger R r ∧ DerInteger S s ∧ sig = derSequence R S ∧ 8 ≤ sig.length ∧ sig.length ≤ 72

/-- The condition on the second integer. -/
def LowS (flags : ScriptFlags) (s : ℕ) : Prop := flags.verifyLowS = true → s ≤ halfOrder

/-- The bytes are an encoding of two positive integers. -/
def WellEncoded (flags : ScriptFlags) (sig : List UInt8) : Prop :=
  ∃ r s, 0 < r ∧ 0 < s ∧ Encodes sig r s ∧ LowS flags s

/-- The check returns, and accepts the bytes exactly when they are an encoding of two positive
integers. -/
def ExactAndTotal (flags : ScriptFlags) (sig : List UInt8) : Prop :=
  checkSignatureEncoding flags sig ≠ .error .panic ∧
    (checkSignatureEncoding flags sig = .ok ⟨⟩ ↔ WellEncoded flags sig)

/-- The first integer ends where the length of the second would stand. -/
def Overruns (sig : List UInt8) : Prop :=
  8 ≤ sig.length ∧ sig.length ≤ 72 ∧ sig[0]? = some 0x30 ∧
    sig[1]? = some (UInt8.ofNat (sig.length - 2)) ∧
    sig[3]? = some (UInt8.ofNat (sig.length - 5))

/-- The bytes are an encoding of two integers of which one is zero. -/
def EncodesZero (flags : ScriptFlags) (sig : List UInt8) : Prop :=
  ∃ r s, (r = 0 ∨ s = 0) ∧ Encodes sig r s ∧ LowS flags s

/-! ## Reading -/

@[simp]
theorem byteAt_eq_ok {bs : List UInt8} {i : ℕ} {b : UInt8} :
    byteAt bs i = .ok b ↔ bs[i]? = some b := by
  unfold byteAt
  split <;> simp_all

@[simp]
theorem byteAt_eq_error {bs : List UInt8} {i : ℕ} {e : ScriptErr} :
    byteAt bs i = .error e ↔ bs.length ≤ i ∧ e = .panic := by
  unfold byteAt
  split
  next h => simpa [eq_comm] using fun _ => getElem?_eq_none_iff.1 h
  next b h =>
    have := (List.getElem?_eq_some_iff.1 h).1
    simp only [reduceCtorEq, false_iff, not_and]
    omega

theorem and_0x80_eq_zero (b : UInt8) : b &&& 0x80 = 0 ↔ b.toNat < 128 := by
  revert b
  decide +kernel

theorem length_framed (m₁ m₂ : UInt8) (R S : List UInt8) :
    (framed m₁ m₂ R S).length = R.length + S.length + 6 := by
  simp only [framed, length_cons, length_append, length_nil]
  omega

variable {sig : List UInt8}

/-- The signatures that pass the checks of the lengths. -/
theorem signatureLengths_eq_ok {rLen sLen : ℕ} :
    signatureLengths sig = .ok (rLen, sLen) ↔ 8 ≤ sig.length ∧ sig.length ≤ 72 ∧
      ∃ m₁ m₂ R S, sig = framed m₁ m₂ R S ∧ R.length = rLen ∧ S.length = sLen := by
  simp only [signatureLengths, bind_eq_ok, rejectIf_eq_ok, byteAt_eq_ok, pure_eq_ok, exists_const,
    Prod.mk.injEq, not_lt, not_not]
  constructor
  · rintro ⟨h8, h72, _, h0, rfl, b1, h1, hlen, b3, h3, hr, c, hc, htotal, rfl, rfl⟩
    refine ⟨h8, h72, ?_⟩
    -- The four bytes before the first integer, the first integer, the two bytes before the second,
    -- the second.
    obtain ⟨a₀, a1, m₁, a3, rest, rfl⟩ :
      ∃ a₀ a1 m₁ a3 rest, sig = a₀ :: a1 :: m₁ :: a3 :: rest := by
      rcases sig with _ | ⟨_, _ | ⟨_, _ | ⟨_, _ | _⟩⟩⟩ <;> simp at h8 ⊢
    simp only [getElem?_cons_zero, getElem?_cons_succ, Option.some.injEq] at h0 h1 h3 hc
    subst h0 h1 h3
    have hbound := (List.getElem?_eq_some_iff.1 hc).1
    obtain ⟨m₂, S, htail⟩ : ∃ m₂ S, rest.drop a3.toNat = m₂ :: c :: S := by
      refine ⟨rest[a3.toNat], rest.drop (a3.toNat + 2), ?_⟩
      rw [drop_eq_getElem_cons (by omega), drop_eq_getElem_cons hbound,
        (List.getElem?_eq_some_iff.1 hc).2]
    have hrest : rest = rest.take a3.toNat ++ m₂ :: c :: S := by rw [← htail, take_append_drop]
    have hR : (rest.take a3.toNat).length = a3.toNat := length_take_of_le (by omega)
    have hS : S.length = c.toNat := by
      have := congrArg length hrest
      simp only [length_append, length_cons, hR] at this htotal
      omega
    refine ⟨m₁, m₂, rest.take a3.toNat, S, ?_, hR, hS⟩
    simp only [length_cons] at hlen htotal
    have hfirst : UInt8.ofNat (a3.toNat + c.toNat + 4) = a1 := by
      rw [show a3.toNat + c.toNat + 4 = a1.toNat by omega, UInt8.ofNat_toNat]
    rw [framed, hR, hS, hfirst, UInt8.ofNat_toNat, UInt8.ofNat_toNat]
    simpa using hrest
  · rintro ⟨h8, h72, m₁, m₂, R, S, rfl, rfl, rfl⟩
    have hlen := length_framed m₁ m₂ R S
    have toNat_ofNat : ∀ n, n < 256 → (UInt8.ofNat n).toNat = n := fun n hn => by
      rw [UInt8.toNat_ofNat', Nat.mod_eq_of_lt hn]
    refine ⟨h8, h72, _, rfl, rfl, _, rfl, ?_, UInt8.ofNat R.length, rfl, ?_, UInt8.ofNat S.length,
      ?_, ?_, ?_, ?_⟩
    all_goals rw [toNat_ofNat _ (by omega)]
    · omega
    · omega
    · simp [framed]
    · rw [toNat_ofNat _ (by omega)]
      omega

/-- Where those checks panic. -/
theorem signatureLengths_eq_panic : signatureLengths sig = .error .panic ↔ Overruns sig := by
  simp only [signatureLengths, bind_eq_error, rejectIf_eq_error, rejectIf_eq_ok, byteAt_eq_ok,
    byteAt_eq_error, pure, Except.pure, exists_const, reduceCtorEq, and_false, false_or, or_false,
    and_true, not_lt, not_not]
  constructor
  · rintro ⟨h8, h72, h | ⟨_, h0, rfl, h | ⟨b1, h1, hlen, h | ⟨b3, h3, hr, hover⟩⟩⟩⟩
    -- The first four bytes are there.
    iterate 3 exact absurd h (by omega)
    refine ⟨h8, h72, h0, ?_, ?_⟩
    · rw [h1, ← hlen, UInt8.ofNat_toNat]
    · rw [h3, show sig.length - 5 = b3.toNat by omega, UInt8.ofNat_toNat]
  · rintro ⟨h8, h72, h0, h1, h3⟩
    refine ⟨h8, h72, .inr ⟨_, h0, rfl, .inr ⟨_, h1, ?_, .inr ⟨_, h3, ?_, ?_⟩⟩⟩⟩
    all_goals
      rw [UInt8.toNat_ofNat']
      omega

theorem byteAt_append (front bs : List UInt8) (i : ℕ) :
    byteAt (front ++ bs) (front.length + i) = byteAt bs i := by
  simp only [byteAt, getElem?_append_right (Nat.le_add_right front.length i),
    Nat.add_sub_cancel_left]

/-- The padding of an integer inside a signature. -/
theorem hasNullByte_append (front bs back : List UInt8) :
    ∃ padded, hasNullByte (front ++ (bs ++ back)) front.length bs.length = .ok padded ∧
      (padded = true ↔ Padded bs) := by
  have h0 := byteAt_append front (bs ++ back) 0
  have h1 := byteAt_append front (bs ++ back) 1
  rw [Nat.add_zero] at h0
  unfold hasNullByte
  rcases bs with _ | ⟨b, _ | ⟨c, rest⟩⟩
  · exact ⟨false, rfl, by simp [Padded]⟩
  · exact ⟨false, rfl, by simp [Padded]⟩
  · rw [if_neg (by simp), h0, h1, byteAt_eq_ok.2 rfl, byteAt_eq_ok.2 rfl, ok_bind]
    split_ifs with hb
    · refine ⟨false, rfl, ?_⟩
      simp [Padded, hb]
    · obtain rfl : b = 0 := not_not.1 hb
      refine ⟨_, rfl, ?_⟩
      rw [decide_eq_true_iff, and_0x80_eq_zero]
      simp [Padded]

/-- The checks on one integer, where it stands between other bytes: they return, and pass for the
contents of an integer after its marker. -/
theorem checkInteger_spec (marker name : String) (front bs back : List UInt8) (m l : UInt8) :
    let result :=
      checkInteger marker name (front ++ [m, l] ++ (bs ++ back)) (front.length + 2) bs.length
    result ≠ .error .panic ∧ (result = .ok ⟨⟩ ↔ m = 0x02 ∧ Nonnegative bs ∧ ¬ Padded bs) := by
  have hm : byteAt (front ++ [m, l] ++ (bs ++ back)) (front.length + 2 - 2) = .ok m := by simp
  have hb := byteAt_append (front ++ [m, l]) (bs ++ back) 0
  obtain ⟨padded, hnull, hpadded⟩ := hasNullByte_append (front ++ [m, l]) bs back
  rw [length_append, show [m, l].length = 2 from rfl] at hb hnull
  rw [Nat.add_zero] at hb
  intro result
  simp only [result, checkInteger, hm, hb, hnull, ok_bind]
  rcases bs with _ | ⟨b, rest⟩
  · constructor
    · simp [bind_eq_error, rejectIf_eq_error]
    · simp [Nonnegative]
  · rw [byteAt_eq_ok.2 (show ((b :: rest) ++ back)[0]? = some b from rfl), ok_bind]
    constructor
    · simp [bind_eq_error, rejectIf_eq_error]
    · have hsign : ¬ (b &&& 0x80 ≠ 0) ↔ Nonnegative (b :: rest) := by
        rw [not_not, and_0x80_eq_zero]
        simp [Nonnegative]
      simp only [bind_eq_ok, rejectIf_eq_ok, exists_const, hsign, hpadded, length_cons,
        Nat.add_one_ne_zero, not_false_eq_true, true_and, not_not]

/-! ## The check -/

theorem framed_eq_first (m₁ m₂ : UInt8) (R S : List UInt8) : framed m₁ m₂ R S =
    [0x30, UInt8.ofNat (R.length + S.length + 4)] ++ [m₁, UInt8.ofNat R.length] ++
      (R ++ ([m₂, UInt8.ofNat S.length] ++ S)) := by
  simp [framed]

theorem framed_eq_second (m₁ m₂ : UInt8) (R S : List UInt8) : framed m₁ m₂ R S =
    ([0x30, UInt8.ofNat (R.length + S.length + 4), m₁, UInt8.ofNat R.length] ++ R) ++
      [m₂, UInt8.ofNat S.length] ++ (S ++ []) := by
  simp [framed]

/-- The checks of the two integers. -/
theorem checkIntegers_framed (flags : ScriptFlags) (m₁ m₂ : UInt8) (R S : List UInt8) :
    let result := checkIntegers flags (framed m₁ m₂ R S) R.length S.length
    result ≠ .error .panic ∧ (result = .ok ⟨⟩ ↔ (m₁ = 0x02 ∧ Nonnegative R ∧ ¬ Padded R) ∧
      (m₂ = 0x02 ∧ Nonnegative S ∧ ¬ Padded S) ∧ LowS flags (ofBeBytes S)) := by
  intro result
  obtain ⟨hreturns, hpasses⟩ :=
    checkInteger_spec "first" "R" [0x30, UInt8.ofNat (R.length + S.length + 4)] R
    ([m₂, UInt8.ofNat S.length] ++ S) m₁ (UInt8.ofNat R.length)
  obtain ⟨hreturns', hpasses'⟩ := checkInteger_spec "second" "S"
    ([0x30, UInt8.ofNat (R.length + S.length + 4), m₁, UInt8.ofNat R.length] ++ R) S [] m₂
      (UInt8.ofNat S.length)
  rw [← framed_eq_first, show ([0x30, UInt8.ofNat (R.length + S.length + 4)] : List UInt8).length +
    2 = 4 from rfl] at hreturns hpasses
  have hoff : ([0x30, UInt8.ofNat (R.length + S.length + 4), m₁, UInt8.ofNat R.length] ++
      R).length + 2 = R.length + 6 := by
    simp only [length_append, length_cons, length_nil]
    omega
  rw [← framed_eq_second, hoff] at hreturns' hpasses'
  have hS : ((framed m₁ m₂ R S).drop (R.length + 6)).take S.length = S := by
    rw [framed_eq_second, append_nil, drop_left' (by simp), take_length]
  simp only [result, checkIntegers, hS]
  constructor
  · simp [bind_eq_error, rejectIf_eq_error, hreturns, hreturns']
  · simp only [bind_eq_ok, rejectIf_eq_ok, exists_const, hpasses, hpasses', LowS, not_and, not_lt]

section

variable {flags : ScriptFlags}
  (hflags : flags.verifyDERSignatures = true ∨ flags.verifyStrictEncoding = true)
include hflags

theorem checkSignatureEncoding_of_flags (sig : List UInt8) : checkSignatureEncoding flags sig =
      signatureLengths sig >>= fun lens => checkIntegers flags sig lens.1 lens.2 := by
  unfold checkSignatureEncoding
  rw [if_neg]
  rcases hflags with h | h <;> simp [h]

/-- Where `checkSignatureEncoding` panics. -/
theorem checkSignatureEncoding_eq_panic (sig : List UInt8) :
    checkSignatureEncoding flags sig = .error .panic ↔ Overruns sig := by
  rw [checkSignatureEncoding_of_flags hflags, bind_eq_error, signatureLengths_eq_panic]
  constructor
  · rintro (hover | ⟨⟨rLen, sLen⟩, hlens, hpanic⟩)
    · exact hover
    · obtain ⟨-, -, m₁, m₂, R, S, rfl, rfl, rfl⟩ := signatureLengths_eq_ok.1 hlens
      exact absurd hpanic (checkIntegers_framed flags m₁ m₂ R S).1
  · exact .inl

/-- The signatures that it accepts. -/
theorem checkSignatureEncoding_eq_ok (sig : List UInt8) :
    checkSignatureEncoding flags sig = .ok ⟨⟩ ↔ ∃ r s, Encodes sig r s ∧ LowS flags s := by
  rw [checkSignatureEncoding_of_flags hflags, bind_eq_ok]
  constructor
  · rintro ⟨⟨rLen, sLen⟩, hlens, hok⟩
    obtain ⟨h8, h72, m₁, m₂, R, S, rfl, rfl, rfl⟩ := signatureLengths_eq_ok.1 hlens
    obtain ⟨⟨rfl, hR⟩, ⟨rfl, hS⟩, hlow⟩ := (checkIntegers_framed flags m₁ m₂ R S).2.1 hok
    exact ⟨_, _, ⟨R, S, derInteger_iff.2 ⟨hR.1, hR.2, rfl⟩, derInteger_iff.2 ⟨hS.1, hS.2, rfl⟩, rfl,
      h8, h72⟩, hlow⟩
  · rintro ⟨r, s, ⟨R, S, hR, hS, rfl, h8, h72⟩, hlow⟩
    obtain ⟨hRsign, hRpad, -⟩ := derInteger_iff.1 hR
    obtain ⟨hSsign, hSpad, rfl⟩ := derInteger_iff.1 hS
    exact ⟨(R.length, S.length), signatureLengths_eq_ok.2 ⟨h8, h72, _, _, R, S, rfl, rfl, rfl⟩,
      (checkIntegers_framed flags 0x02 0x02 R S).2.2
        ⟨⟨rfl, hRsign, hRpad⟩, ⟨rfl, hSsign, hSpad⟩, hlow⟩⟩

end

/-- A signature encodes one pair of integers. -/
theorem Encodes.unique {r s r' s' : ℕ} (h : Encodes sig r s) (h' : Encodes sig r' s') :
    r = r' ∧ s = s' := by
  obtain ⟨R, S, hR, hS, rfl, -, h72⟩ := h
  obtain ⟨R', S', hR', hS', hsame, -, -⟩ := h'
  have hlen : R.length + S.length + 6 ≤ 72 := by rwa [derSequence, length_framed] at h72
  have hlen' : R'.length + S'.length + 6 ≤ 72 := by
    rw [hsame, derSequence, length_framed] at h72
    exact h72
  simp only [derSequence, framed, cons_append, nil_append, append_assoc, cons.injEq,
    true_and] at hsame
  obtain ⟨-, hfirst, hrest⟩ := hsame
  have hRlen : R.length = R'.length := by
    have := congrArg UInt8.toNat hfirst
    rw [UInt8.toNat_ofNat', UInt8.toNat_ofNat'] at this
    omega
  obtain ⟨rfl, htail⟩ := append_inj hrest hRlen
  simp only [cons.injEq, true_and] at htail
  obtain ⟨-, rfl⟩ := htail
  exact ⟨hR.value.symm.trans hR'.value, hS.value.symm.trans hS'.value⟩

/-- The check returns and is exact unless the first integer ends where the length of the second
would stand, or one of the integers is zero. -/
theorem exactAndTotal_iff {flags : ScriptFlags}
    (hflags : flags.verifyDERSignatures = true ∨ flags.verifyStrictEncoding = true)
    (sig : List UInt8) :
    ExactAndTotal flags sig ↔ ¬ Overruns sig ∧ ¬ EncodesZero flags sig := by
  unfold ExactAndTotal
  rw [checkSignatureEncoding_eq_ok hflags, Ne, checkSignatureEncoding_eq_panic hflags]
  refine and_congr_right fun _ => Iff.intro ?_ ?_
  · rintro hexact ⟨r, s, hzero, henc, hlow⟩
    obtain ⟨r', s', hr', hs', henc', -⟩ := hexact.1 ⟨r, s, henc, hlow⟩
    obtain ⟨rfl, rfl⟩ := henc.unique henc'
    omega
  · refine fun hnot => ⟨?_, fun ⟨r, s, _, _, henc, hlow⟩ => ⟨r, s, henc, hlow⟩⟩
    rintro ⟨r, s, henc, hlow⟩
    refine ⟨r, s, ?_, ?_, henc, hlow⟩
    · exact Nat.pos_of_ne_zero fun h => hnot ⟨r, s, .inl h, henc, hlow⟩
    · exact Nat.pos_of_ne_zero fun h => hnot ⟨r, s, .inr h, henc, hlow⟩

/-- The encoding of one and one. -/
def onesSignature : List UInt8 := [0x30, 6, 0x02, 1, 1, 0x02, 1, 1]

/-- The encoding of one and one is checked as it should be, also for a low second integer. -/
theorem exactAndTotal_onesSignature :
    ExactAndTotal { verifyDERSignatures := true, verifyLowS := true } onesSignature := by
  refine (exactAndTotal_iff (.inl rfl) onesSignature).2 ⟨by unfold Overruns; decide, ?_⟩
  rintro ⟨r, s, hzero, ⟨R, S, hR, hS, hsig, -, -⟩, -⟩
  rcases hzero with rfl | rfl
  · obtain rfl := hR.eq_zero_iff.1 rfl
    simp [derSequence, framed, onesSignature] at hsig
  · -- The last byte is not zero.
    obtain rfl := hS.eq_zero_iff.1 rfl
    have hlast := congrArg (fun bs => bs.reverse.head?) hsig
    simp [derSequence, framed, onesSignature] at hlast

/-- In these eight bytes the first integer ends with the last byte, and the check reads beyond it.
Where the first integer is zero the check accepts. -/
theorem exists_checkSignatureEncoding_panic :
    (checkSignatureEncoding { verifyDERSignatures := true } [0x30, 6, 0x02, 3, 1, 1, 1, 1] =
      .error .panic ∧
      ¬ ExactAndTotal { verifyDERSignatures := true } [0x30, 6, 0x02, 3, 1, 1, 1, 1]) ∧
    checkSignatureEncoding { verifyDERSignatures := true } [0x30, 6, 0x02, 1, 0, 0x02, 1, 1] =
      .ok ⟨⟩ := by
  have hpanic :
      checkSignatureEncoding { verifyDERSignatures := true } [0x30, 6, 0x02, 3, 1, 1, 1, 1] =
      .error .panic := by decide +kernel
  exact ⟨⟨hpanic, fun h => h.1 hpanic⟩, by decide +kernel⟩

end Hcashd.Script
