import Hcashd.Lib.Bytes

/-!
# Reading from the front of bytes

A reader takes a value off the front of a list of bytes, or fails. What is known of a reader is
which bytes it takes for which value, whatever comes after them (`Reads`), and the rules below put
readers together along `do` blocks: the bytes that a block takes are those of its parts, one after
the other. Variable length integers are read in their shortest form only.
-/

namespace Hcashd.Lib

open List

/-- A reader of values. -/
abbrev Reader := StateT (List UInt8) Option

/-- A reader takes these bytes for this value, whatever follows them. -/
def Reads {α : Type} (r : Reader α) (bs : List UInt8) (a : α) : Prop :=
  ∀ rest, r (bs ++ rest) = some (a, rest)

namespace Reader

/-- The next `k` bytes. -/
def take (k : ℕ) : Reader (List UInt8) := fun bs =>
  if bs.length < k then none else some (bs.take k, bs.drop k)

/-- An unsigned number in the next `k` bytes, least significant first. -/
def uint (k : ℕ) : Reader ℕ := do pure (ofLeBytes (← take k))

/-- A signed number in the next `k` bytes. -/
def int (k : ℕ) : Reader ℤ := do pure (Int.bmod (← uint k) (256 ^ k))

/-- Fails unless a condition holds. -/
def require (p : Prop) [Decidable p] : Reader PUnit := fun bs => if p then some ((), bs) else none

/-- A value for each of a number of turns. -/
def count {α : Type} (r : Reader α) : ℕ → Reader (List α)
  | 0 => pure []
  | n + 1 => do pure ((← r) :: (← count r n))

/-- How many bytes are left. -/
def left : Reader ℕ := fun bs => some (bs.length, bs)

end Reader

section

variable {α β : Type} {r : Reader α} {f : α → Reader β} {bs bs' : List UInt8} {a : α} {b : β}

/-- The whole of the bytes is read. -/
theorem Reads.self (h : Reads r bs a) : r bs = some (a, []) := by
  have hnil := h []
  rwa [append_nil] at hnil

theorem Reads.pure (a : α) : Reads (Pure.pure a) [] a := fun _ => rfl

/-- A block goes on with the value and the bytes that its first reader leaves. -/
theorem Reader.bind_eq (h : r bs = some (a, bs')) : (r >>= f) bs = f a bs' := by
  calc (r >>= f) bs = (r bs).bind fun p => f p.1 p.2 := rfl
    _ = f a bs' := by rw [h, Option.bind_some]

/-- Two readers, one after the other. -/
theorem Reads.bind (hr : Reads r bs a) (hf : Reads (f a) bs' b) :
    Reads (r >>= f) (bs ++ bs') b := by
  intro rest
  rw [append_assoc, Reader.bind_eq (hr _), hf]

/-- The last reader of a block, whose value is only changed. -/
theorem Reads.map (g : α → β) (hr : Reads r bs a) :
    Reads (r >>= fun a => Pure.pure (g a)) bs (g a) := by
  have h : Reads (r >>= fun a => Pure.pure (g a)) (bs ++ []) (g a) := hr.bind (Reads.pure (g a))
  rwa [append_nil] at h

/-- A condition that is met in the middle of a block. -/
theorem Reads.require {p : Prop} [Decidable p] {r : Reader α} (h : p) (hr : Reads r bs a) :
    Reads (Reader.require p >>= fun _ => r) bs a := by
  intro rest
  have hp : Reader.require p (bs ++ rest) =
      some ((), bs ++ rest) := by rw [Reader.require, if_pos h]
  rw [Reader.bind_eq hp, hr]

theorem Reads.take (bs : List UInt8) : Reads (Reader.take bs.length) bs bs := by
  intro rest
  rw [Reader.take, if_neg (by simp), take_left, drop_left]

theorem Reads.uint {k n : ℕ} (h : n < 256 ^ k) : Reads (Reader.uint k) (leBytes k n) n := by
  have htake : Reads (Reader.take k) (leBytes k n) (leBytes k n) := by
    have h := Reads.take (leBytes k n)
    rwa [length_leBytes] at h
  have h' := htake.map ofLeBytes
  rwa [ofLeBytes_leBytes, Nat.mod_eq_of_lt h] at h'

/-- A number in the signed range of its width is read back from its unsigned form. -/
theorem Reads.int {k : ℕ} {z : ℤ} (hl : -(256 ^ k : ℤ) ≤ 2 * z) (hu : 2 * z < 256 ^ k) :
    Reads (Reader.int k) (leBytes k (z % 256 ^ k).toNat) z := by
  have hpos : (0 : ℤ) < 256 ^ k := by positivity
  have hmod : ((z % 256 ^ k).toNat : ℤ) = z % 256 ^ k :=
    Int.toNat_of_nonneg (Int.emod_nonneg _ hpos.ne')
  have hlt : (z % 256 ^ k).toNat < 256 ^ k := by
    have h := Int.emod_lt_of_pos z hpos
    rw [← hmod] at h
    exact_mod_cast h
  have hread := (Reads.uint hlt).map fun n : ℕ => Int.bmod n (256 ^ k)
  have hz : Int.bmod ((z % 256 ^ k).toNat : ℤ) (256 ^ k) = z := by
    rw [hmod]
    have hbmod := Int.emod_bmod z (256 ^ k)
    push_cast at hbmod
    rw [hbmod]
    apply Int.bmod_eq_of_le_mul_two
    · push_cast
      omega
    · push_cast
      omega
  rwa [hz] at hread

/-- Values one after the other, by a reader that takes the bytes of each for some part of it. -/
theorem Reads.countMap {part : β → α} {encode : β → List UInt8} {xs : List β}
    (h : ∀ x ∈ xs, Reads r (encode x) (part x)) :
    Reads (Reader.count r xs.length) (xs.flatMap encode) (xs.map part) := by
  induction xs with
  | nil => exact Reads.pure []
  | cons x xs ih =>
    obtain ⟨hx, hxs⟩ := forall_mem_cons.1 h
    rw [flatMap_cons, map_cons]
    exact hx.bind ((ih hxs).map (part x :: ·))

/-- Values one after the other. -/
theorem Reads.count {encode : α → List UInt8} {xs : List α} (h : ∀ x ∈ xs, Reads r (encode x) x) :
    Reads (Reader.count r xs.length) (xs.flatMap encode) xs := by
  have hread := Reads.countMap h
  rwa [map_id'] at hread

end

/-! ## Variable length integers -/

/-- A number in its shortest form: itself below `0xfd`, and otherwise the mark of a width and the
number in that width. -/
def varInt (val : ℕ) : List UInt8 :=
  if val < 0xfd then leBytes 1 val
  else if val ≤ 0xffff then 0xfd :: leBytes 2 val
  else if val ≤ 0xffffffff then 0xfe :: leBytes 4 val
  else 0xff :: leBytes 8 val

/-- A number of a width that no shorter form could hold. -/
def Reader.marked (k least : ℕ) : Reader ℕ := do
  let rv ← uint k
  require (least ≤ rv)
  pure rv

/-- A number in its shortest form. -/
def Reader.varInt : Reader ℕ := do
  let discriminant ← uint 1
  if discriminant = 0xff then marked 8 0x100000000
  else if discriminant = 0xfe then marked 4 0x10000
  else if discriminant = 0xfd then marked 2 0xfd
  else pure discriminant

theorem Reads.marked {k least n : ℕ} (hl : least ≤ n) (hu : n < 256 ^ k) :
    Reads (Reader.marked k least) (leBytes k n) n := by
  have h : Reads (Reader.marked k least) (leBytes k n ++ []) n :=
    (Reads.uint hu).bind (Reads.require hl (Reads.pure n))
  rwa [append_nil] at h

/-- A number of variable length is read back. -/
theorem Reads.varInt {n : ℕ} (h : n < 2^64) : Reads Reader.varInt (varInt n) n := by
  unfold Lib.varInt
  split_ifs with h1 h2 h3
  · -- the number stands for itself, and is none of the marks
    have hread : Reads Reader.varInt (leBytes 1 n ++ []) n := by
      apply (Reads.uint (show n < 256 ^ 1 by omega)).bind
      rw [if_neg (by omega), if_neg (by omega), if_neg (by omega)]
      exact Reads.pure n
    rwa [append_nil] at hread
  · exact (Reads.uint (show 0xfd < 256 ^ 1 by decide)).bind (Reads.marked (by omega) (by omega))
  · exact (Reads.uint (show 0xfe < 256 ^ 1 by decide)).bind (Reads.marked (by omega) (by omega))
  · exact (Reads.uint (show 0xff < 256 ^ 1 by decide)).bind (Reads.marked (by omega) (by omega))

end Hcashd.Lib
