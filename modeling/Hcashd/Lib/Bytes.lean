import Hcashd.Lib.Word

/-!
# Fixed-width records

Numbers written in a fixed number of bytes and read back, and lists of records of one width. What is
written fits in its width, so reading gives back what was written (`readUint_append`,
`decodeRecords_flatMap`).
-/

namespace Hcashd.Lib

open List

variable {α : Type*} {encode : α → List UInt8} {width : ℕ} {xs : List α}

theorem length_leBytes (k n : ℕ) : (leBytes k n).length = k := by
  induction k generalizing n with
  | zero => rfl
  | succ k ih => rw [leBytes, length_cons, ih]

/-- Writing a number in `k` bytes keeps it modulo `256^k`. -/
theorem ofLeBytes_leBytes (k n : ℕ) : ofLeBytes (leBytes k n) = n % 256 ^ k := by
  induction k generalizing n with
  | zero => simp [leBytes, ofLeBytes, Nat.mod_one]
  | succ k ih =>
    rw [leBytes, ofLeBytes, ih, pow_succ', Nat.mod_mul, UInt8.toNat_ofNat']

/-- The range of the bytes. -/
theorem ofLeBytes_lt (bs : List UInt8) : ofLeBytes bs < 256 ^ bs.length := by
  induction bs with
  | nil => exact Nat.one_pos
  | cons b bs ih =>
    have hb := b.toNat_lt
    rw [ofLeBytes, length_cons, pow_succ']
    omega

/-- The bytes of the number that a list of bytes writes are the list. -/
theorem leBytes_ofLeBytes (bs : List UInt8) : leBytes bs.length (ofLeBytes bs) = bs := by
  induction bs with
  | nil => rfl
  | cons b bs ih =>
    have hb := b.toNat_lt
    have hrest : (b.toNat + 256 * ofLeBytes bs) / 256 = ofLeBytes bs := by omega
    have hfirst : UInt8.ofNat (b.toNat + 256 * ofLeBytes bs) = b := by
      apply UInt8.toNat_inj.1
      rw [UInt8.toNat_ofNat']
      omega
    rw [length_cons, ofLeBytes, leBytes, hrest, hfirst, ih]

/-- The number in the next `k` bytes, with the bytes after it. -/
def readUint (k : ℕ) (bs : List UInt8) : ℕ × List UInt8 := (ofLeBytes (bs.take k), bs.drop k)

/-- A number is read back. -/
@[simp]
theorem readUint_append {k n : ℕ} (h : n < 256 ^ k) (bs : List UInt8) :
    readUint k (leBytes k n ++ bs) = (n, bs) := by
  rw [readUint, take_left' (length_leBytes k n), drop_left' (length_leBytes k n),
    ofLeBytes_leBytes, Nat.mod_eq_of_lt h]

/-- `n` records of `width` bytes each. -/
def decodeRecords {α : Type*} (width : ℕ) (decode : List UInt8 → α) : ℕ → List UInt8 → List α
  | 0, _ => []
  | n + 1, bs => decode (bs.take width) :: decodeRecords width decode n (bs.drop width)

/-- Records written one after the other are read back. -/
theorem decodeRecords_flatMap {decode : List UInt8 → α}
    (hlength : ∀ x ∈ xs, (encode x).length = width)
    (hdecode : ∀ x ∈ xs, decode (encode x) = x) (bs : List UInt8) :
    decodeRecords width decode xs.length (xs.flatMap encode ++ bs) = xs := by
  induction xs with
  | nil => rfl
  | cons x xs ih =>
    obtain ⟨hlen, hlength⟩ := forall_mem_cons.1 hlength
    obtain ⟨hdec, hdecode⟩ := forall_mem_cons.1 hdecode
    rw [length_cons, decodeRecords, flatMap_cons, append_assoc, take_left' hlen,
      drop_left' hlen, hdec, ih hlength hdecode]

/-- The length of records written one after the other. -/
theorem length_flatMap_of_length (hlength : ∀ x ∈ xs, (encode x).length = width) :
    (xs.flatMap encode).length = xs.length * width := by
  rw [length_flatMap, map_congr_left hlength, map_const', sum_replicate, smul_eq_mul]

end Hcashd.Lib
