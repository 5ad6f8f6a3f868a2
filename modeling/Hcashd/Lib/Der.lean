import Hcashd.Lib.Bytes

/-!
# Integers in DER

A nonnegative integer in the distinguished encoding rules is written in bytes from the most
significant one on, with the first bit clear, and in the fewest bytes that allow this
(`DerInteger`). Whether there is a byte to spare can be seen at the first two (`derInteger_iff`).
-/

namespace Hcashd.Lib

open List

/-- The number that bytes write, the most significant first. -/
def ofBeBytes (bs : List UInt8) : ℕ := ofLeBytes bs.reverse

theorem ofLeBytes_append (bs cs : List UInt8) :
    ofLeBytes (bs ++ cs) = ofLeBytes bs + 256 ^ bs.length * ofLeBytes cs := by
  induction bs with
  | nil => simp [ofLeBytes]
  | cons b bs ih =>
    rw [cons_append, ofLeBytes, ofLeBytes, ih, length_cons, pow_succ']
    ring

/-- The first byte is the most significant one. -/
theorem ofBeBytes_cons (b : UInt8) (bs : List UInt8) :
    ofBeBytes (b :: bs) = 256 ^ bs.length * b.toNat + ofBeBytes bs := by
  rw [ofBeBytes, reverse_cons, ofLeBytes_append, length_reverse, ofBeBytes]
  simp only [ofLeBytes]
  ring

theorem ofBeBytes_lt (bs : List UInt8) : ofBeBytes bs < 256 ^ bs.length := by
  simpa only [ofBeBytes, length_reverse] using ofLeBytes_lt bs.reverse

/-- The first bit is clear, so that the bytes are not those of a negative number. -/
def Nonnegative (bs : List UInt8) : Prop := ∃ b ∈ bs.head?, b.toNat < 128

/-- The bytes are the contents of the integer `n`: no shorter nonnegative ones write it. -/
structure DerInteger (bs : List UInt8) (n : ℕ) : Prop where
  nonnegative : Nonnegative bs
  value : ofBeBytes bs = n
  shortest : ∀ cs, Nonnegative cs → ofBeBytes cs = n → bs.length ≤ cs.length

/-- The first byte is only there to clear the first bit, which the second byte has clear. -/
def Padded (bs : List UInt8) : Prop := ∃ b rest, bs = 0 :: b :: rest ∧ b.toNat < 128

variable {bs : List UInt8}

/-- The sign bit of a nonnegative number is free. -/
theorem Nonnegative.two_mul_lt (h : Nonnegative bs) : 2 * ofBeBytes bs < 256 ^ bs.length := by
  obtain ⟨b, hb, hlow⟩ := h
  obtain ⟨rest, rfl⟩ : ∃ rest, bs = b :: rest := head?_eq_some_iff.1 hb
  have hrest := ofBeBytes_lt rest
  have hfirst : 256 ^ rest.length * (b.toNat + 1) ≤ 256 ^ rest.length * 128 :=
    Nat.mul_le_mul_left _ hlow
  rw [ofBeBytes_cons, length_cons, pow_succ']
  linarith

/-- Without padding the first byte is needed. -/
theorem le_two_mul_of_not_padded {b c : UInt8} {rest : List UInt8} (h : ¬ Padded (b :: c :: rest)) :
    256 ^ (c :: rest).length ≤ 2 * ofBeBytes (b :: c :: rest) := by
  rw [ofBeBytes_cons, ofBeBytes_cons, length_cons, pow_succ']
  rcases Nat.eq_zero_or_pos b.toNat with hb | hb
  · -- The first byte is zero, so the second one has its first bit set.
    obtain rfl : b = 0 := UInt8.toNat_inj.1 hb
    have hc : 128 ≤ c.toNat := by
      by_contra hlow
      exact h ⟨c, rest, rfl, by omega⟩
    have hhalf := Nat.mul_le_mul_left (256 ^ rest.length) hc
    rw [hb]
    linarith
  · have hwhole : 256 * 256 ^ rest.length * 1 ≤ 256 * 256 ^ rest.length * b.toNat :=
      Nat.mul_le_mul_left _ hb
    linarith [Nat.zero_le (256 ^ rest.length), Nat.zero_le (256 ^ rest.length * c.toNat)]

/-- The shortest encoding has no padding. -/
theorem not_padded_of_shortest
    (h : ∀ cs, Nonnegative cs → ofBeBytes cs = ofBeBytes bs → bs.length ≤ cs.length) :
    ¬ Padded bs := by
  rintro ⟨b, rest, rfl, hb⟩
  have hshort := h (b :: rest) ⟨b, rfl, hb⟩ (by rw [ofBeBytes_cons 0]; simp)
  simp only [length_cons] at hshort
  omega

/-- The contents of an integer are the nonnegative bytes without padding. -/
theorem derInteger_iff {n : ℕ} :
    DerInteger bs n ↔ Nonnegative bs ∧ ¬ Padded bs ∧ ofBeBytes bs = n := by
  constructor
  · rintro ⟨hsign, rfl, hshort⟩
    exact ⟨hsign, not_padded_of_shortest hshort, rfl⟩
  · rintro ⟨hsign, hpad, rfl⟩
    refine ⟨hsign, rfl, fun cs hcs hvalue => ?_⟩
    rcases bs with _ | ⟨b, _ | ⟨c, rest⟩⟩
    · exact Nat.zero_le _
    · obtain ⟨d, hd, -⟩ := hcs
      exact length_pos_of_mem (mem_of_head? hd)
    · -- What the bytes write does not fit in fewer of them.
      have hfit : 256 ^ (c :: rest).length < 256 ^ cs.length :=
        calc 256 ^ (c :: rest).length ≤ 2 * ofBeBytes (b :: c :: rest) :=
          le_two_mul_of_not_padded hpad
          _ = 2 * ofBeBytes cs := by rw [hvalue]
          _ < 256 ^ cs.length := hcs.two_mul_lt
      exact (Nat.pow_lt_pow_iff_right (by norm_num)).1 hfit

/-- Zero is the only integer whose contents are a zero byte, and they are its only contents. -/
theorem DerInteger.eq_zero_iff {n : ℕ} (h : DerInteger bs n) : n = 0 ↔ bs = [0] := by
  constructor
  · rintro rfl
    have hshort := h.shortest [0] ⟨0, rfl, by decide⟩ (by decide)
    obtain ⟨b, hb, -⟩ := h.nonnegative
    obtain ⟨rest, rfl⟩ : ∃ rest, bs = b :: rest := head?_eq_some_iff.1 hb
    obtain rfl : rest = [] := by simpa using hshort
    have hzero := h.value
    rw [ofBeBytes_cons] at hzero
    have hb0 : b.toNat = 0 := by simpa using (Nat.add_eq_zero_iff.1 hzero).1
    rw [show b = 0 from UInt8.toNat_inj.1 hb0]
  · rintro rfl
    exact h.value.symm.trans (by decide)

end Hcashd.Lib
