import Hcashd.Script.SigEncoding

/-!
# Parsing ECDSA signatures

`parseSig` of secp256k1, which `ParseSignature` and `ParseDERSignature` call, and `Serialize`. The
length byte of the sequence is increased by two in eight bits, and what comes after the sequence is
cut off and never looked at. A length that wraps around, or is too small for an integer, lets the
parser read beyond the slice (`Overreads`), and an encoding with more bytes after it is accepted
like the encoding itself (`Trailed`). On all other bytes the parser accepts the canonical encodings
and nothing else (`totalAndExact_iff`).
-/

namespace Hcashd.Hcashec

open Lib Script List

/-- The order of the group. -/
def order : ℕ := 0xFFFFFFFFFFFFFFFFFFFFFFFFFFFFFFFEBAAEDCE6AF48A03BBFD25E8CD0364141

/-- `canonicalPadding`, with the texts that `parseSig` gives its errors. -/
def canonicalPadding (name : String) : List UInt8 → Except ScriptErr PUnit
  | [] => .error .panic
  | b :: rest => do
    rejectIf (b &&& 0x80 = 0x80) (.malformedSignature ("signature " ++ name ++ " is negative"))
    rejectIf (b = 0 ∧ ∃ c ∈ rest.head?, c &&& 0x80 ≠ 0x80)
      (.malformedSignature ("signature " ++ name ++ " is excessively padded"))

/-- The part of `parseSig` that is made once for each integer, on the bytes that are left. At least
`reserve` bytes must come after the integer. -/
def parseInteger (nth name : String) (reserve : ℕ) (der : Bool) :
    List UInt8 → Except ScriptErr (ℕ × List UInt8)
  | [] => .error .panic
  | m :: rest => do
    rejectIf (m ≠ 0x02) (.malformedSignature ("no " ++ nth ++ " int marker"))
    match rest with
    | [] => .error .panic
    | len :: rest => do
      rejectIf (len = 0 ∨ rest.length < len.toNat + reserve)
        (.malformedSignature ("bogus " ++ name ++ " length"))
      let _ ← (if der then canonicalPadding name (rest.take len.toNat)
        else pure ⟨⟩ : Except ScriptErr PUnit)
      pure (ofBeBytes (rest.take len.toNat), rest.drop len.toNat)

/-- `parseSig`: the two numbers of a signature. -/
def parseSig (der : Bool) (sigStr : List UInt8) : Except ScriptErr (ℕ × ℕ) := do
  rejectIf (sigStr.length < 8) (.malformedSignature "too short")
  rejectIf ((← byteAt sigStr 0) ≠ 0x30) (.malformedSignature "no header magic")
  let siglen ← byteAt sigStr 1
  rejectIf (sigStr.length < (siglen + 2).toNat) (.malformedSignature "bad length")
  let sigStr := sigStr.take (siglen + 2).toNat
  let (r, rest) ← parseInteger "1st" "R" 3 der (sigStr.drop 2)
  let (s, rest) ← parseInteger "2nd" "S" 0 der rest
  rejectIf (rest ≠ []) (.malformedSignature "bad final length")
  rejectIf (r = 0) (.malformedSignature "signature R isn't 1 or more")
  rejectIf (s = 0) (.malformedSignature "signature S isn't 1 or more")
  rejectIf (order ≤ r) (.malformedSignature "signature R is >= curve.N")
  rejectIf (order ≤ s) (.malformedSignature "signature S is >= curve.N")
  pure (r, s)

/-- `ParseSignature`, which does not insist on DER. -/
def parseSignature : List UInt8 → Except ScriptErr (ℕ × ℕ) := parseSig false

/-- `ParseDERSignature`, which insists on DER. -/
def parseDERSignature : List UInt8 → Except ScriptErr (ℕ × ℕ) := parseSig true

/-- `Bytes` of a nonnegative `big.Int`. -/
def bytes (n : ℕ) : List UInt8 := beBytes ((n.size + 7) / 8) n

/-- `canonicalizeInt`: a number in bytes, padded so that it is not negative. -/
def canonicalizeInt (val : ℕ) : List UInt8 :=
  let b := bytes val
  let b := if b = [] then [0] else b
  if ∃ c ∈ b.head?, c &&& 0x80 ≠ 0 then 0 :: b else b

/-- `Serialize`. -/
def serialize (r s : ℕ) : List UInt8 :=
  let s := if halfOrder < s then order - s else s
  derSequence (canonicalizeInt r) (canonicalizeInt s)

/-! ## What is asked of the parser -/

/-- The canonical encoding of two integers below the order. -/
def Canonical (sig : List UInt8) (r s : ℕ) : Prop :=
  ∃ R S, DerInteger R r ∧ DerInteger S s ∧ sig = derSequence R S ∧ (0 < r ∧ r < order) ∧
    0 < s ∧ s < order

/-- Both parsers return, the strict one accepts the canonical encodings, and what it accepts is
written again as it was read. -/
structure TotalAndExact (sig : List UInt8) : Prop where
  total : ∀ der, parseSig der sig ≠ .error .panic
  exact : (∃ r s, parseDERSignature sig = .ok (r, s)) ↔ ∃ r s, Canonical sig r s
  restored : ∀ r s, parseDERSignature sig = .ok (r, s) → s ≤ halfOrder → serialize r s = sig

/-- The length of the sequence, increased by two in eight bits, leaves out the marker or the length
of the first integer. -/
def Overreads (sig : List UInt8) : Prop :=
  8 ≤ sig.length ∧ sig[0]? = some 0x30 ∧ ∃ siglen, sig[1]? = some siglen ∧
    ((siglen + 2).toNat < 3 ∨ siglen = 1 ∧ sig[2]? = some 0x02)

/-- More bytes come after a canonical encoding. -/
def Trailed (sig : List UInt8) : Prop := ∃ d t r s, t ≠ [] ∧ sig = d ++ t ∧ Canonical d r s

/-! ## One integer -/

variable {bs rest sig : List UInt8} {r s n : ℕ} {der : Bool}

theorem and_0x80_eq (b : UInt8) : b &&& 0x80 = 0x80 ↔ ¬ b.toNat < 128 := by
  revert b
  decide +kernel

/-- The integers that `canonicalPadding` accepts. -/
theorem canonicalPadding_eq_ok {name : String} :
    canonicalPadding name bs = .ok ⟨⟩ ↔ Nonnegative bs ∧ ¬ Padded bs := by
  cases bs with
  | nil => simp [canonicalPadding, Nonnegative]
  | cons b rest =>
    have hpadded : Padded (b :: rest) ↔ b = 0 ∧ ∃ c ∈ rest.head?, c.toNat < 128 := by
      cases rest <;> simp [Padded]
    simp only [canonicalPadding, bind_eq_ok, rejectIf_eq_ok, exists_const, and_0x80_eq, ne_eq,
      not_not, hpadded]
    simp [Nonnegative]

theorem canonicalPadding_ne_panic {name : String} (h : bs ≠ []) :
    canonicalPadding name bs ≠ .error .panic := by
  cases bs with
  | nil => exact absurd rfl h
  | cons b rest => simp [canonicalPadding, bind_eq_error, rejectIf_eq_error]

/-- What is read as one integer: a marker, a length, and as many bytes, with enough of them left. -/
theorem parseInteger_eq_ok {nth name : String} {reserve : ℕ} :
    parseInteger nth name reserve der bs = .ok (n, rest) ↔
    ∃ R, bs = 0x02 :: UInt8.ofNat R.length :: (R ++ rest) ∧
      R ≠ [] ∧ R.length < 256 ∧ reserve ≤ rest.length ∧ (der = true → Nonnegative R ∧ ¬ Padded R) ∧
      ofBeBytes R = n := by
  constructor
  · intro h
    match bs with
    | [] => cases h
    | [m] => simp [parseInteger, bind_eq_ok] at h
    | m :: len :: tail =>
      simp only [parseInteger, bind_eq_ok, rejectIf_eq_ok, pure_eq_ok, exists_const, not_not,
        not_or, not_lt, Prod.mk.injEq] at h
      obtain ⟨rfl, ⟨hlen, hfit⟩, _, hpad, rfl, rfl⟩ := h
      have hR : (tail.take len.toNat).length = len.toNat := length_take_of_le (by omega)
      refine ⟨tail.take len.toNat, ?_, fun hnil => hlen ?_, ?_, ?_, fun hder => ?_, rfl⟩
      · rw [hR, UInt8.ofNat_toNat, take_append_drop]
      · rw [hnil] at hR
        exact UInt8.toNat_inj.1 hR.symm
      · rw [hR]
        exact len.toNat_lt
      · rw [length_drop]
        omega
      · rw [if_pos hder] at hpad
        exact canonicalPadding_eq_ok.1 hpad
  · rintro ⟨R, rfl, hne, hlt, hrest, hpad, rfl⟩
    have hlen : (UInt8.ofNat R.length).toNat =
        R.length := by rw [UInt8.toNat_ofNat', Nat.mod_eq_of_lt hlt]
    have hpos := length_pos_of_ne_nil hne
    simp only [parseInteger, bind_eq_ok, rejectIf_eq_ok, exists_const, hlen, take_left, drop_left]
    refine ⟨not_not.2 rfl, ?_, ⟨⟩, ?_, rfl⟩
    · rw [← UInt8.toNat_inj, hlen, length_append, UInt8.toNat_zero]
      omega
    · split_ifs with hder
      · exact canonicalPadding_eq_ok.2 (hpad hder)
      · rfl

/-- Where reading an integer panics. -/
theorem parseInteger_eq_panic {nth name : String} {reserve : ℕ} :
    parseInteger nth name reserve der bs = .error .panic ↔ bs = [] ∨ bs = [0x02] := by
  match bs with
  | [] => simp [parseInteger]
  | [m] => simp [parseInteger, bind_eq_error, rejectIf_eq_error]
  | m :: len :: tail =>
    refine iff_of_false ?_ (by simp)
    simp only [parseInteger, bind_eq_error, rejectIf_eq_error, rejectIf_eq_ok, exists_const,
      reduceCtorEq, and_false, false_or, not_or, not_lt, pure, Except.pure, or_false]
    rintro ⟨-, ⟨hlen, hfit⟩, hpad⟩
    split_ifs at hpad
    refine canonicalPadding_ne_panic (fun hnil => hlen ?_) hpad
    have hR := congrArg length hnil
    rw [length_take_of_le (by omega)] at hR
    exact UInt8.toNat_inj.1 hR

/-! ## The whole parser -/

theorem take_eq_nil_or_marker (h8 : 8 ≤ sig.length) (l : UInt8) :
    ((sig.drop 2).take ((l + 2).toNat - 2) = [] ∨ (sig.drop 2).take ((l + 2).toNat - 2) = [0x02]) ↔
      (l + 2).toNat < 3 ∨ l = 1 ∧ sig[2]? = some 0x02 := by
  have hone : ∀ l : UInt8, l = 1 ↔ (l + 2).toNat - 2 = 1 := by decide +kernel
  have hnone : (l + 2).toNat < 3 ↔ (l + 2).toNat - 2 = 0 := by omega
  obtain ⟨a, b, c, d, tail, rfl⟩ : ∃ a b c d tail, sig = a :: b :: c :: d :: tail := by
    match sig, h8 with
    | a :: b :: c :: d :: tail, _ => exact ⟨a, b, c, d, tail, rfl⟩
  rw [hone, hnone]
  match (l + 2).toNat - 2 with
  | 0 | 1 | _ + 2 => simp

/-- The signatures on which `parseSig` panics. -/
theorem parseSig_eq_panic : parseSig der sig = .error .panic ↔ Overreads sig := by
  simp only [parseSig, bind_eq_error, rejectIf_eq_error, rejectIf_eq_ok, byteAt_eq_ok,
    byteAt_eq_error, exists_const, reduceCtorEq, and_false, false_or, or_false, and_true, not_lt,
    not_not, parseInteger_eq_panic, Prod.exists, pure,
    Except.pure, drop_take]
  constructor
  · rintro ⟨h8, h | ⟨_, h0, rfl, h | ⟨l, h1, -, hshort | ⟨r, rest, hfirst, hshort⟩⟩⟩⟩
    · omega
    · omega
    · exact ⟨h8, h0, l, h1, (take_eq_nil_or_marker h8 l).1 hshort⟩
    · -- Three bytes are left for the second integer.
      obtain ⟨R, -, -, -, hreserve, -⟩ := parseInteger_eq_ok.1 hfirst
      rcases hshort with rfl | rfl <;> simp at hreserve
  · rintro ⟨h8, h0, l, h1, hshort⟩
    refine ⟨h8, .inr ⟨_, h0, rfl, .inr ⟨l, h1, ?_, .inl ((take_eq_nil_or_marker h8 l).2 hshort)⟩⟩⟩
    rcases hshort with hl | ⟨rfl, -⟩
    · omega
    · exact le_trans (by decide) h8

theorem length_le_of_lt_order {R : List UInt8} (h : DerInteger R n) (hn : n < order) :
    R.length ≤ 33 := by
  have hvalue : ofBeBytes (0 :: beBytes 32 n) = n := by
    rw [ofBeBytes_cons, ofBeBytes, beBytes, reverse_reverse, ofLeBytes_leBytes,
      Nat.mod_eq_of_lt (hn.trans (by decide +kernel))]
    simp
  have hshort := h.shortest _ ⟨0, rfl, by decide⟩ hvalue
  rwa [length_cons, beBytes, length_reverse, length_leBytes] at hshort

/-- The strict parser accepts the bytes that start with a canonical encoding. -/
theorem parseDERSignature_eq_ok :
    parseDERSignature sig = .ok (r, s) ↔ ∃ d t, sig = d ++ t ∧ Canonical d r s := by
  simp only [parseDERSignature, parseSig, bind_eq_ok, rejectIf_eq_ok, byteAt_eq_ok, pure_eq_ok,
    exists_const, not_lt,
    not_le, not_not, Prod.exists, Prod.mk.injEq, parseInteger_eq_ok, forall_const, drop_take]
  constructor
  · rintro ⟨h8, _, h0, rfl, l, h1, hfit, r, rest, ⟨R, hT, hR, hRlen, hreserve, hRder, rfl⟩, s, _,
      ⟨S, rfl, hS, hSlen, -, hSder, rfl⟩, rfl, hr, hs, hr', hs', rfl, rfl⟩
    obtain ⟨a, b, tail, rfl⟩ : ∃ a b tail, sig = a :: b :: tail := by
      rcases sig with _ | ⟨_, _ | _⟩ <;> simp at h8 ⊢
    obtain rfl := Option.some.inj h0
    obtain rfl := Option.some.inj h1
    change tail.take ((b + 2).toNat - 2) = _ at hT
    have hlen := congrArg length hT
    rw [length_cons, length_cons] at hfit
    simp only [length_take_of_le (show (b + 2).toNat - 2 ≤ tail.length by omega), length_cons,
      length_append, length_nil] at hlen
    have hb : b = UInt8.ofNat (R.length + S.length + 4) := by
      have hwrap : (b + 2).toNat = (b.toNat + 2) % 256 := UInt8.toNat_add b 2
      have hlt := b.toNat_lt
      rw [← UInt8.toNat_inj, UInt8.toNat_ofNat']
      omega
    refine ⟨0x30 :: b :: tail.take ((b + 2).toNat - 2), tail.drop ((b + 2).toNat - 2), ?_, R, S,
      derInteger_iff.2 ⟨hRder.1, hRder.2, rfl⟩, derInteger_iff.2 ⟨hSder.1, hSder.2, rfl⟩, ?_,
      ⟨Nat.pos_of_ne_zero hr, hr'⟩, Nat.pos_of_ne_zero hs, hs'⟩
    · simp
    · rw [hT, hb]
      simp [derSequence, framed]
  · rintro ⟨d, t, rfl, R, S, hR, hS, rfl, hr, hs⟩
    have hRle := length_le_of_lt_order hR hr.2
    have hSle := length_le_of_lt_order hS hs.2
    obtain ⟨hRsign, hRpad, rfl⟩ := derInteger_iff.1 hR
    obtain ⟨hSsign, hSpad, rfl⟩ := derInteger_iff.1 hS
    have hne {bs : List UInt8} (h : Nonnegative bs) : bs ≠ [] := by
      rintro rfl
      simp [Nonnegative] at h
    have hpos := length_pos_of_ne_nil (hne hRsign)
    have hpos' := length_pos_of_ne_nil (hne hSsign)
    have hlen : (UInt8.ofNat (R.length + S.length + 4) + 2).toNat = R.length + S.length + 6 := by
      rw [UInt8.toNat_add, UInt8.toNat_ofNat', show (2 : UInt8).toNat = 2 from rfl]
      omega
    have htotal : (derSequence R S ++ t).length = R.length + S.length + 6 + t.length := by
      rw [length_append, derSequence, length_framed]
    refine ⟨by omega, _, rfl, rfl, _, rfl, by omega, _, 0x02 :: UInt8.ofNat S.length :: (S ++ []),
      ⟨R, ?_, hne hRsign, by omega, ?_, ⟨hRsign, hRpad⟩, rfl⟩, _, [],
      ⟨S, rfl, hne hSsign, by omega, Nat.zero_le _, ⟨hSsign, hSpad⟩, rfl⟩, rfl, hr.1.ne', hs.1.ne',
      hr.2, hs.2, rfl, rfl⟩
    · rw [hlen]
      refine (take_left' ?_).trans ?_
      · simp
        omega
      · simp
    · simp
      omega

/-! ## Writing -/

/-- A number has one encoding. -/
theorem eq_of_derInteger {R S : List UInt8} (hR : DerInteger R n) (hS : DerInteger S n) :
    R = S := by
  have hlen :=
    le_antisymm (hR.shortest S hS.nonnegative hS.value) (hS.shortest R hR.nonnegative hR.value)
  have hsame := hR.value.trans hS.value.symm
  rw [← reverse_inj, ← leBytes_ofLeBytes R.reverse, ← leBytes_ofLeBytes S.reverse,
    length_reverse, hlen, length_reverse]
  exact congrArg _ hsame

/-- `canonicalizeInt` gives it. -/
theorem derInteger_canonicalizeInt (hn : 0 < n) : DerInteger (canonicalizeInt n) n := by
  have hlt : n < 256 ^ ((n.size + 7) / 8) := by
    rw [show 256 = 2 ^ 8 from rfl, ← pow_mul]
    exact Nat.size_le.1 (by omega)
  have hvalue : ofBeBytes (bytes n) = n := by
    rw [ofBeBytes, bytes, beBytes, reverse_reverse, ofLeBytes_leBytes, Nat.mod_eq_of_lt hlt]
  have hlen : (bytes n).length =
      (n.size + 7) / 8 := by rw [bytes, beBytes, length_reverse, length_leBytes]
  have hsize := Nat.size_pos.2 hn
  rw [derInteger_iff, canonicalizeInt]
  cases hbytes : bytes n with
  | nil =>
    rw [hbytes, length_nil] at hlen
    omega
  | cons b rest =>
    rw [hbytes] at hvalue hlen
    simp only [reduceCtorEq, if_false, head?_cons, Option.mem_some_iff, exists_eq_left', ne_eq,
      and_0x80_eq_zero]
    split_ifs with hb
    · refine ⟨⟨b, rfl, hb⟩, ?_, hvalue⟩
      -- With a zero byte at its start the number would fit in one byte less.
      rintro ⟨c, rest', heq, -⟩
      obtain ⟨rfl, rfl⟩ := cons.inj heq
      have hsmall := ofBeBytes_lt (c :: rest')
      rw [← show ofBeBytes (0 :: c :: rest') =
        ofBeBytes (c :: rest') by rw [ofBeBytes_cons 0]; simp, hvalue,
        show 256 = 2 ^ 8 from rfl, ← pow_mul, ← Nat.size_le] at hsmall
      rw [length_cons] at hlen
      omega
    · refine ⟨⟨0, rfl, by decide⟩, ?_, ?_⟩
      · rintro ⟨c, rest', heq, hc⟩
        exact hb ((cons.inj (cons.inj heq).2).1 ▸ hc)
      · rw [ofBeBytes_cons 0, hvalue]
        simp

/-- A canonical signature with a low `s` is serialized as it was read. -/
theorem serialize_of_canonical (h : Canonical sig r s) (hlow : s ≤ halfOrder) :
    serialize r s = sig := by
  obtain ⟨R, S, hR, hS, rfl, hr, hs⟩ := h
  rw [serialize, if_neg (not_lt.2 hlow), eq_of_derInteger (derInteger_canonicalizeInt hr.1) hR,
    eq_of_derInteger (derInteger_canonicalizeInt hs.1) hS]

/-- A canonical encoding has the length that its second byte says. -/
theorem Canonical.getElem?_one (h : Canonical sig r s) :
    sig[1]? = some (UInt8.ofNat (sig.length - 2)) ∧ sig.length < 256 := by
  obtain ⟨R, S, hR, hS, rfl, hr, hs⟩ := h
  have hRle := length_le_of_lt_order hR hr.2
  have hSle := length_le_of_lt_order hS hs.2
  rw [derSequence, length_framed]
  exact ⟨rfl, by omega⟩

/-- The parsers are total and exact unless the length byte makes them read beyond the slice, or more
bytes come after a canonical encoding. -/
theorem totalAndExact_iff (sig : List UInt8) :
    TotalAndExact sig ↔ ¬ Overreads sig ∧ ¬ Trailed sig := by
  constructor
  · rintro ⟨htotal, hexact, -⟩
    refine ⟨fun h => htotal true (parseSig_eq_panic.2 h), ?_⟩
    rintro ⟨d, t, r, s, ht, rfl, hd⟩
    obtain ⟨r', s', hwhole⟩ := hexact.1 ⟨r, s, parseDERSignature_eq_ok.2 ⟨d, t, rfl, hd⟩⟩
    -- Both lengths stand in the same byte.
    obtain ⟨hone, hlt⟩ := hd.getElem?_one
    obtain ⟨hone', hlt'⟩ := hwhole.getElem?_one
    have hlong := (List.getElem?_eq_some_iff.1 hone).1
    have hpos := length_pos_of_ne_nil ht
    rw [getElem?_append_left hlong, hone, Option.some.injEq, ← UInt8.toNat_inj, UInt8.toNat_ofNat',
      UInt8.toNat_ofNat', length_append] at hone'
    rw [length_append] at hlt'
    omega
  · rintro ⟨hreads, htrailed⟩
    have hok {r s : ℕ} : parseDERSignature sig = .ok (r, s) ↔ Canonical sig r s := by
      rw [parseDERSignature_eq_ok]
      constructor
      · rintro ⟨d, t, rfl, hd⟩
        have ht : t = [] := by_contra fun ht => htrailed ⟨d, t, r, s, ht, rfl, hd⟩
        rwa [ht, append_nil]
      · exact fun h => ⟨sig, [], (append_nil _).symm, h⟩
    refine ⟨fun der h => hreads (parseSig_eq_panic.1 h), ?_, fun r s h =>
      serialize_of_canonical (hok.1 h)⟩
    simp only [hok]

/-- The encoding of one and one with a byte after it is accepted, and with a length of 254 the
parser panics. -/
theorem exists_parseSig_panic : parseSig false [0x30, 254, 0x02, 1, 1, 0x02, 1, 1] = .error .panic ∧
    parseDERSignature (onesSignature ++ [0]) = .ok (1, 1) ∧
    ¬ TotalAndExact (onesSignature ++ [0]) := by
  have hok : parseDERSignature (onesSignature ++ [0]) = .ok (1, 1) := by decide +kernel
  refine ⟨by decide +kernel, hok, fun h => ?_⟩
  obtain ⟨r, s, hcanonical⟩ := h.exact.1 ⟨1, 1, hok⟩
  exact absurd hcanonical.getElem?_one.1 (by decide)

end Hcashd.Hcashec
