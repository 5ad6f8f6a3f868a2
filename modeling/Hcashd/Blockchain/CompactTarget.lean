import Hcashd.Blockchain.BlockIndex

/-!
# Compact targets

`BigToCompact` writes a target with the length of its bytes and its first bytes, so that the first
bit of these is not set. A number has exactly one such exponent: the targets from `2^15 * 256^(e -
3)` up to `2^23 * 256^(e - 3)` have the exponent `e`, and they are rounded down to a multiple of
`256^(e - 3)`.
-/

namespace Hcashd.Blockchain

open Index (calcWork)

/-- `BigToCompact`: a number as mantissa, sign and base-256 exponent in 32 bits. -/
def bigToCompact (n : ℤ) : ℕ :=
  if n = 0 then 0
  else
    let length := (Nat.digits 256 n.natAbs).length
    let first := if length ≤ 3 then (n.natAbs <<< (8 * (3 - length))) % 2^32
      else (n >>> (8 * (length - 3))).natAbs % 2^32
    -- With the bit of the sign set, the number is one byte longer.
    let exponent := if first &&& 0x00800000 ≠ 0 then length + 1 else length
    let mantissa := if first &&& 0x00800000 ≠ 0 then first >>> 8 else first
    let compact := (exponent <<< 24) % 2^32 ||| mantissa
    if n < 0 then compact ||| 0x00800000 else compact

/-- The exponent of a number that is written in compact form. -/
def IsExponent (n e : ℕ) : Prop := 2^15 * 256^e ≤ n * 256^3 ∧ n * 256^3 < 2^23 * 256^e

variable {n m e f : ℕ}

/-- The sign bit. -/
theorem and_sign_ne_zero_iff {c : ℕ} : c &&& 0x00800000 ≠ 0 ↔ c / 2^23 % 2 = 1 := by
  rw [show 0x00800000 = 2^23 from rfl, Nat.and_two_pow, Nat.testBit_eq_decide_div_mod_eq]
  simp

/-- The exponent of a smaller number is not larger. -/
theorem IsExponent.le_of_le (hn : IsExponent n e) (hm : IsExponent m f) (hle : n ≤ m) : e ≤ f := by
  by_contra hlt
  have hpow : 256 * 256^f ≤ 256^e := by
    rw [← pow_succ']
    exact Nat.pow_le_pow_right (by norm_num) (by omega)
  have := hn.1
  have := hm.2
  omega

/-- The mantissa fits in 23 bits and its top byte is used. -/
theorem IsExponent.quotient_lt (hn : IsExponent n e) :
    2^15 ≤ n * 256^3 / 256^e ∧ n * 256^3 / 256^e < 2^23 :=
  ⟨(Nat.le_div_iff_mul_le (by positivity)).2 hn.1, (Nat.div_lt_iff_lt_mul (by positivity)).2 hn.2⟩

theorem two_pow_mul_eight (k : ℕ) : 2^(8 * k) = 256^k := by
  rw [pow_mul]
  norm_num

theorem mul_div_pow_of_le (he : e ≤ 3) : n * 256^3 / 256^e = n * 256^(3 - e) := by
  rw [show (256 : ℕ)^3 = 256^(3 - e) * 256^e by rw [← pow_add]; congr 1; omega, ← mul_assoc,
    Nat.mul_div_cancel _ (by positivity)]

theorem mul_div_pow_of_ge (he : 3 ≤ e) : n * 256^3 / 256^e = n / 256^(e - 3) := by
  rw [show (256 : ℕ)^e = 256^(e - 3) * 256^3 by rw [← pow_add]; congr 1; omega,
    Nat.mul_div_mul_right _ _ (by positivity)]

/-- The first three bytes of a number with a number of bytes. -/
theorem first_eq (hlength : (Nat.digits 256 n).length = e) :
    (if e ≤ 3 then (n <<< (8 * (3 - e))) % 2^32
      else ((n : ℤ) >>> (8 * (e - 3))).natAbs % 2^32) = n * 256^3 / 256^e := by
  have hlt : n < 256^e := (Nat.digits_length_le_iff (by norm_num) n).1 hlength.le
  have hsmall : n * 256^3 / 256^e < 2^32 := by
    rw [Nat.div_lt_iff_lt_mul (by positivity)]
    omega
  split_ifs with he
  · rw [mul_div_pow_of_le he] at hsmall ⊢
    rw [Nat.shiftLeft_eq, two_pow_mul_eight, Nat.mod_eq_of_lt hsmall]
  · rw [mul_div_pow_of_ge (by omega)] at hsmall ⊢
    rw [show ((n : ℤ) >>> (8 * (e - 3))) = ((n >>> (8 * (e - 3)) : ℕ) : ℤ) from rfl,
      Int.natAbs_natCast, Nat.shiftRight_eq_div_pow, two_pow_mul_eight, Nat.mod_eq_of_lt hsmall]

/-- Every number below `2^256` has an exponent, and the compact form is made of it. -/
theorem exists_bigToCompact_eq (hn : 0 < n) (hlt : n < 2^256) :
    ∃ e ≤ 33, IsExponent n e ∧ bigToCompact n = e * 2^24 + n * 256^3 / 256^e := by
  obtain ⟨l, hl⟩ : ∃ l, (Nat.digits 256 n).length = l := ⟨_, rfl⟩
  have hupper : n < 256^l := (Nat.digits_length_le_iff (by norm_num) n).1 hl.le
  have hle : l ≤ 32 := hl ▸ (Nat.digits_length_le_iff (by norm_num) n).2 (by norm_num; exact hlt)
  have hlower : 256^l ≤ 256 * n := hl ▸ Nat.base_pow_length_digits_le 256 n (by norm_num) hn.ne'
  have hfirst := first_eq hl
  have hq : n * 256^3 / 256^l < 2^24 := by
    rw [Nat.div_lt_iff_lt_mul (by positivity)]
    omega
  -- Whether the first bit of the first three bytes is set.
  have hor {q f : ℕ} (hq : q < 2^24) (hf : f ≤ 33) : (f <<< 24) % 2^32 ||| q = f * 2^24 + q := by
    rw [Nat.mod_eq_of_lt (by rw [Nat.shiftLeft_eq]; omega), ← Nat.shiftLeft_add_eq_or_of_lt hq,
      Nat.shiftLeft_eq]
  rw [bigToCompact, if_neg (by exact_mod_cast hn.ne')]
  rw [if_neg (by omega), Int.natAbs_natCast, hl, hfirst]
  split_ifs with hsign
  · rw [and_sign_ne_zero_iff] at hsign
    have hdiv : n * 256^3 / 256^l / 2^8 = n * 256^3 / 256^(l + 1) := Nat.div_div_eq_div_mul _ _ _
    have hge : 2^23 * 256^l ≤ n * 256^3 := (Nat.le_div_iff_mul_le (by positivity)).1 (by omega)
    refine ⟨l + 1, by omega, ⟨?_, ?_⟩, ?_⟩
    · rw [pow_succ]
      omega
    · rw [pow_succ]
      omega
    · rw [Nat.shiftRight_eq_div_pow, hdiv, hor _ (by omega)]
      rw [← hdiv]
      omega
  · rw [and_sign_ne_zero_iff] at hsign
    have hlt : n * 256^3 < 2^23 * 256^l := (Nat.div_lt_iff_lt_mul (by positivity)).1 (by omega)
    exact ⟨l, by omega, ⟨by omega, hlt⟩, hor hq (by omega)⟩

/-- `BigToCompact` in closed form. -/
theorem bigToCompact_eq (h : IsExponent n e) (hlt : n < 2^256) :
    bigToCompact n = e * 2^24 + n * 256^3 / 256^e := by
  have hn : 0 < n := by
    have := h.1
    have : 0 < 256^e := by positivity
    omega
  obtain ⟨f, -, hf, heq⟩ := exists_bigToCompact_eq hn hlt
  rw [heq, le_antisymm (h.le_of_le hf le_rfl) (hf.le_of_le h le_rfl)]

/-- The parts of a compact form without sign are read back. -/
theorem compactToBig_mul_add {q : ℕ} (hq : q < 2^23) : compactToBig (e * 2^24 + q) =
    (if e ≤ 3 then q / 256^(3 - e) else q * 256^(e - 3) : ℕ) := by
  have hmantissa : (e * 2^24 + q) &&& 0x007fffff = q := by
    rw [show 0x007fffff = 2^23 - 1 from rfl, Nat.and_two_pow_sub_one_eq_mod]
    omega
  have hexponent : (e * 2^24 + q) >>> 24 = e := by
    rw [Nat.shiftRight_eq_div_pow]
    omega
  have hsign : ¬ (e * 2^24 + q) &&& 0x00800000 ≠ 0 := by
    rw [and_sign_ne_zero_iff]
    omega
  unfold compactToBig
  rw [if_neg hsign, hmantissa, hexponent, Nat.shiftRight_eq_div_pow, Nat.shiftLeft_eq,
    two_pow_mul_eight, two_pow_mul_eight]
  split_ifs <;> rfl

/-- A number is rounded down to a multiple of the last place of its compact form. -/
theorem compactToBig_bigToCompact (h : IsExponent n e) (hlt : n < 2^256) :
    compactToBig (bigToCompact n) = (n / 256^(e - 3) * 256^(e - 3) : ℕ) := by
  rw [bigToCompact_eq h hlt, compactToBig_mul_add h.quotient_lt.2]
  split_ifs with he
  · rw [mul_div_pow_of_le he, Nat.mul_div_cancel _ (by positivity),
      Nat.sub_eq_zero_of_le he, pow_zero, Nat.div_one, mul_one]
  · rw [mul_div_pow_of_ge (by omega)]

/-- The number that is left after the compact form. -/
theorem IsExponent.round (h : IsExponent n e) : IsExponent (n / 256^(e - 3) * 256^(e - 3)) e := by
  refine ⟨?_, (Nat.mul_le_mul_right _ (Nat.div_mul_le_self n _)).trans_lt h.2⟩
  obtain he | he := le_total e 3
  · simpa [Nat.sub_eq_zero_of_le he] using h.1
  · have hq := h.quotient_lt.1
    rw [mul_div_pow_of_ge he] at hq
    calc 2^15 * 256^e ≤ n / 256^(e - 3) * 256^e := Nat.mul_le_mul_right _ hq
      _ = n / 256^(e - 3) * 256^(e - 3) * 256^3 := by
          rw [mul_assoc, ← pow_add, Nat.sub_add_cancel he]

theorem round_quotient (n e : ℕ) :
    n / 256^(e - 3) * 256^(e - 3) * 256^3 / 256^e = n * 256^3 / 256^e := by
  obtain he | he := le_total e 3
  · rw [Nat.sub_eq_zero_of_le he, pow_zero, Nat.div_one, mul_one]
  · rw [mul_div_pow_of_ge he, mul_div_pow_of_ge he, Nat.mul_div_cancel _ (by positivity)]

/-- Rounding down to a mantissa is monotone. -/
theorem IsExponent.round_le (hn : IsExponent n e) (hm : IsExponent m f) (hle : n ≤ m) :
    n / 256^(e - 3) * 256^(e - 3) ≤ m / 256^(f - 3) * 256^(f - 3) := by
  obtain rfl | hlt := (hn.le_of_le hm hle).eq_or_lt
  · exact Nat.mul_le_mul_right _ (Nat.div_le_div_right hle)
  · -- The rounded numbers are on both sides of the lowest number with the larger exponent.
    have hpow : 256 * 256^e ≤ 256^f := by
      rw [← pow_succ']
      exact Nat.pow_le_pow_right (by norm_num) hlt
    have := hn.round.2
    have := hm.round.1
    omega

/-- The last place of a number is below `2^-15` of it. -/
theorem IsExponent.error_lt (h : IsExponent n e) :
    2^15 * (n - n / 256^(e - 3) * 256^(e - 3)) < n := by
  have hround := h.round.1
  obtain he | he := le_total e 3
  · have hpos : 0 < 256^e := by positivity
    have := h.1
    rw [Nat.sub_eq_zero_of_le he, pow_zero, Nat.div_one, mul_one]
    omega
  · have hmod : n - n / 256^(e - 3) * 256^(e - 3) < 256^(e - 3) := by
      have := Nat.mod_lt n (show 0 < 256^(e - 3) by positivity)
      have := Nat.div_add_mod' n (256^(e - 3))
      omega
    have hlow : 2^15 * 256^(e - 3) ≤ n := by
      refine Nat.le_of_mul_le_mul_right ?_ (show 0 < 256^3 by norm_num)
      rw [mul_assoc, ← pow_add, Nat.sub_add_cancel he]
      exact h.1
    omega

/-- Only the sign bit makes a target negative. -/
theorem compactToBig_neg {c : ℕ} (h : compactToBig c < 0) : c &&& 0x00800000 ≠ 0 := by
  intro hsign
  unfold compactToBig at h
  rw [if_neg (not_not.2 hsign)] at h
  split_ifs at h
  · exact (Int.natCast_nonneg _).not_gt h
  · exact (Int.natCast_nonneg _).not_gt h

theorem bigToCompact_zero : bigToCompact (0 : ℕ) = 0 := rfl

/-- A larger target has a larger compact form. -/
theorem bigToCompact_mono (hle : m ≤ n) (hn : n < 2^256) : bigToCompact m ≤ bigToCompact n := by
  obtain rfl | hm := m.eq_zero_or_pos
  · rw [bigToCompact_zero]
    exact Nat.zero_le _
  obtain ⟨e, -, he, hcompact⟩ := exists_bigToCompact_eq hm (hle.trans_lt hn)
  obtain ⟨f, -, hf, hcompact'⟩ := exists_bigToCompact_eq (hm.trans_le hle) hn
  rw [hcompact, hcompact']
  obtain rfl | hlt := (he.le_of_le hf hle).eq_or_lt
  · exact Nat.add_le_add_left (Nat.div_le_div_right (Nat.mul_le_mul_right _ hle)) _
  · have := he.quotient_lt.2
    have := hf.quotient_lt.1
    omega

/-- There and back is monotone and rounds down. -/
theorem compactToBig_mono (hm : 0 < m) (hle : m ≤ n) (hn : n < 2^256) :
    0 < compactToBig (bigToCompact m) ∧
    compactToBig (bigToCompact m) ≤ compactToBig (bigToCompact n) ∧
      compactToBig (bigToCompact n) ≤ n := by
  obtain ⟨e, -, he, -⟩ := exists_bigToCompact_eq hm (hle.trans_lt hn)
  obtain ⟨f, -, hf, -⟩ := exists_bigToCompact_eq (hm.trans_le hle) hn
  have herror := he.error_lt
  rw [compactToBig_bigToCompact he (hle.trans_lt hn), compactToBig_bigToCompact hf hn]
  refine ⟨?_, ?_, ?_⟩
  · have : 0 < m / 256^(e - 3) * 256^(e - 3) := by omega
    exact_mod_cast this
  · exact_mod_cast he.round_le hf hle
  · exact_mod_cast Nat.div_mul_le_self n _

/-- The work of a target is positive, and not larger for a larger target. -/
theorem calcWork_anti (hm : 0 < m) (hle : m ≤ n) (hn : n < 2^256) :
    0 < calcWork (bigToCompact n) ∧ calcWork (bigToCompact n) ≤ calcWork (bigToCompact m) := by
  obtain ⟨hpos, hmono, hself⟩ := compactToBig_mono hm hle hn
  have hpos' := hpos.trans_le hmono
  rw [calcWork, calcWork, if_neg hpos'.not_ge, if_neg hpos.not_ge]
  have hwork : 0 < 2^256 / (compactToBig (bigToCompact n) + 1) :=
    zero_lt_one.trans_le (Int.le_ediv_of_mul_le (by omega) (by omega))
  refine ⟨hwork, Int.le_ediv_of_mul_le (by omega) ?_⟩
  calc 2^256 / (compactToBig (bigToCompact n) + 1) * (compactToBig (bigToCompact m) + 1)
      ≤ 2^256 / (compactToBig (bigToCompact n) + 1) * (compactToBig (bigToCompact n) + 1) :=
        mul_le_mul_of_nonneg_left (by omega) hwork.le
    _ ≤ 2^256 := Int.ediv_mul_le _ (by omega)

/-- Compact targets are canonical and keep the order of targets, and so does the work of a target,
the other way. Only the bit of the sign makes a target negative. -/
theorem compactTarget_law (n : ℕ) (hn : n < 2^256) :
    (0 ≤ compactToBig (bigToCompact n) ∧ compactToBig (bigToCompact n) ≤ n) ∧
      (0 < n → 2^15 * (n - compactToBig (bigToCompact n)) < n) ∧
      (∀ m : ℕ, m ≤ n → bigToCompact m ≤ bigToCompact n) ∧
      bigToCompact (compactToBig (bigToCompact n)) = bigToCompact n ∧
      (0 < n → 0 < calcWork (bigToCompact n) ∧
        ∀ m : ℕ, 0 < m → m ≤ n → calcWork (bigToCompact n) ≤ calcWork (bigToCompact m)) ∧
      ∀ c, compactToBig c < 0 → c &&& 0x00800000 ≠ 0 := by
  obtain rfl | hpos := n.eq_zero_or_pos
  · refine ⟨by decide, nofun, fun m hm => ?_, rfl, nofun, fun c => compactToBig_neg⟩
    rw [Nat.le_zero.1 hm]
  obtain ⟨e, -, he, hcompact⟩ := exists_bigToCompact_eq hpos hn
  have hround := compactToBig_bigToCompact he hn
  refine ⟨⟨?_, ?_⟩, fun _ => ?_, fun m hle => bigToCompact_mono hle hn, ?_,
    fun _ => ⟨(calcWork_anti hpos le_rfl hn).1, fun m hm hle => (calcWork_anti hm hle hn).2⟩,
    fun c => compactToBig_neg⟩
  · rw [hround]
    exact Int.natCast_nonneg _
  · exact (compactToBig_mono hpos le_rfl hn).2.2
  · have herror := he.error_lt
    have := Nat.div_mul_le_self n (256^(e - 3))
    rw [hround]
    omega
  · rw [hround, hcompact, bigToCompact_eq he.round ((Nat.div_mul_le_self n _).trans_lt hn),
      round_quotient]

/-- The law at one target. -/
theorem compactTarget_law_sample : bigToCompact (compactToBig (bigToCompact (0x12345678 : ℕ))) =
    bigToCompact (0x12345678 : ℕ) := (compactTarget_law 0x12345678 (by norm_num)).2.2.2.1

end Hcashd.Blockchain
