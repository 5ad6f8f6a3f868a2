import Mathlib

/-!
# Machine words

The source computes with fixed-width integers. Unsigned values are naturals and signed ones are
integers, and the operations that can leave the range of their type say so: `u32` and `int64` bring
a result back into it. The lemmas state when nothing happens (`u32_of_lt`, `int64_of_range`), which
is the case on all the paths that a bound protects.
-/

namespace Hcashd.Lib

/-- A result of unsigned 32-bit arithmetic. -/
def u32 (n : ℕ) : ℕ := n % 2^32

/-- Unsigned 32-bit subtraction. -/
def u32Sub (a b : ℕ) : ℕ := (a + (2^32 - b % 2^32)) % 2^32

/-- A result of signed 64-bit arithmetic. -/
def int64 (x : ℤ) : ℤ := Int.bmod x (2^64)

/-- A value in the unsigned 32-bit range is its own result. -/
theorem u32_of_lt {n : ℕ} (h : n < 2^32) : u32 n = n := Nat.mod_eq_of_lt h

/-- A value in the signed 64-bit range is its own result. -/
theorem int64_of_range {x : ℤ} (hl : -2^63 ≤ x) (hu : x < 2^63) : int64 x = x := by
  unfold int64
  rw [Int.bmod_eq_of_le]
  · norm_num
    omega
  · norm_num
    omega

/-- Every result is in the signed 64-bit range. -/
theorem int64_range (x : ℤ) : -2^63 ≤ int64 x ∧ int64 x < 2^63 := by
  have hpos : 0 < 2^64 := by norm_num
  have hl := Int.le_bmod (x := x) hpos
  have hu := Int.bmod_lt (x := x) hpos
  unfold int64
  constructor
  · norm_num at hl ⊢
    omega
  · norm_num at hu ⊢
    omega

/-- The usual test for overflow: a sum with something that is not negative is exact unless it comes
out below what it was added to. -/
theorem int64_add_of_le {a b : ℤ} (hl : -2^63 ≤ a) (hu : a ≤ 2^63) (hb : 0 ≤ b) (hb' : b < 2^63)
    (h : a ≤ int64 (a + b)) : int64 (a + b) = a + b := by
  rcases lt_or_ge (a + b) (2^63) with hsmall | hbig
  · exact int64_of_range (by omega) hsmall
  · have hwrap : int64 (a + b) = int64 (a + b - 2^64) := by
      unfold int64
      exact (Int.sub_bmod_right _ _).symm
    rw [int64_of_range (x := a + b - 2^64) (by omega) (by omega)] at hwrap
    omega

/-- The bytes of `n`, least significant first, in `k` places. -/
def leBytes : ℕ → ℕ → List UInt8
  | 0, _ => []
  | k + 1, n => UInt8.ofNat n :: leBytes k (n / 256)

/-- The bytes of `n`, most significant first, in `k` places. -/
def beBytes (k n : ℕ) : List UInt8 := (leBytes k n).reverse

/-- The number that a list of bytes writes, least significant first. -/
def ofLeBytes : List UInt8 → ℕ
  | [] => 0
  | b :: bs => b.toNat + 256 * ofLeBytes bs

end Hcashd.Lib
