import Mathlib

/-!
# Variable length quantities

A number is written in groups of seven bits, the most significant group first, and all bytes but the
last one have their high bit set. One is taken off each time a group is shifted out, so that no
number has two forms. The writer takes the groups off the low end of the number, in a bounded number
of turns; the reader adds them up in a type with `modulus` values, until a byte without the high bit
or the end of the bytes. It gives back what was written, whatever follows (`readVlq_vlq_append`),
and different numbers for different bytes that end as they should (`Whole.eq_of_readVlq_eq`).
-/

namespace Hcashd.Lib

open List

/-- The bytes of a number, least significant first, in at most `turns` turns. The first one is
marked with `highBitMask`, and the others with the high bit. -/
def vlqBytes : (turns : ℕ) → (highBitMask : UInt8) → (n : ℕ) → List UInt8
  | 0, _, _ => []
  | turns + 1, highBitMask, n =>
    (UInt8.ofNat (n % 128) ||| highBitMask) :: if n ≤ 0x7f then []
      else vlqBytes turns 0x80 (n / 128 - 1)

/-- The bytes of a number, most significant first. -/
def vlq (turns n : ℕ) : List UInt8 := (vlqBytes turns 0 n).reverse

/-- How many bytes a number takes. -/
def vlqSize : (turns : ℕ) → (n : ℕ) → ℕ
  | 0, _ => 0
  | turns + 1, n => if n ≤ 0x7f then 1 else vlqSize turns (n / 128 - 1) + 1

/-- Reads on from the value `n` of the groups so far, of which `size` bytes were read. -/
def readVlqFrom (modulus : ℕ) : (n size : ℕ) → List UInt8 → ℕ × ℕ
  | n, size, [] => (n, size)
  | n, size, val :: rest =>
    let n := (n * 128 + (val &&& 0x7f).toNat) % modulus
    if val &&& 0x80 ≠ 0x80 then (n, size + 1)
    else readVlqFrom modulus ((n + 1) % modulus) (size + 1) rest

/-- The number at the front of bytes, with how many bytes it takes. -/
def readVlq (modulus : ℕ) (bs : List UInt8) : ℕ × ℕ := readVlqFrom modulus 0 0 bs

theorem length_vlqBytes (turns : ℕ) (mask : UInt8) (n : ℕ) :
    (vlqBytes turns mask n).length = vlqSize turns n := by
  induction turns generalizing mask n with
  | zero => rfl
  | succ turns ih =>
    rw [vlqBytes, vlqSize, length_cons, apply_ite length, ih, length_nil]
    split_ifs <;> rfl

@[simp]
theorem length_vlq (turns n : ℕ) : (vlq turns n).length = vlqSize turns n := by
  rw [vlq, length_reverse, length_vlqBytes]

theorem vlqSize_le (turns n : ℕ) : vlqSize turns n ≤ turns := by
  induction turns generalizing n with
  | zero => exact le_rfl
  | succ turns ih =>
    rw [vlqSize]
    split_ifs
    · omega
    · exact Nat.succ_le_succ (ih _)

theorem vlqSize_pos (turns n : ℕ) : 0 < vlqSize (turns + 1) n := by
  rw [vlqSize]
  split_ifs <;> omega

/-- The front of a list, without some of its end. -/
structure Cut {α : Type*} (cut whole : List α) : Prop where
  isPrefix : cut <+: whole
  ne : cut ≠ whole

section Cut

variable {α : Type*} {cut front back whole : List α}

theorem Cut.length_lt (h : Cut cut whole) : cut.length < whole.length :=
  lt_of_le_of_ne h.isPrefix.length_le fun heq => h.ne (h.isPrefix.eq_of_length heq)

theorem Cut.append_right (h : Cut cut front) : Cut cut (front ++ back) :=
  ⟨h.isPrefix.trans (prefix_append _ _), fun heq =>
    h.length_lt.not_ge (by rw [heq, length_append]; omega)⟩

theorem not_cut_nil : ¬ Cut cut [] := fun h => h.ne (prefix_nil.1 h.isPrefix)

/-- A cut behind a common front. -/
theorem cut_append_left_iff : Cut (front ++ cut) (front ++ back) ↔ Cut cut back :=
  ⟨fun h => ⟨(prefix_append_right_inj front).1 h.isPrefix, fun heq => h.ne (by rw [heq])⟩,
    fun h => ⟨(prefix_append_right_inj front).2 h.isPrefix, fun heq =>
      h.ne (append_cancel_left heq)⟩⟩

theorem cut_cons_iff {a : α} : Cut (a :: cut) (a :: back) ↔ Cut cut back := by
  rw [← singleton_append, ← singleton_append (l := back), cut_append_left_iff]

/-- Two lists are cut off in the first one, or in the second one. -/
theorem Cut.append_cases (h : Cut cut (front ++ back)) :
    Cut cut front ∨ ∃ rest, cut = front ++ rest ∧ Cut rest back := by
  by_cases hfront : front <+: cut
  · obtain ⟨rest, rfl⟩ := hfront
    exact Or.inr ⟨rest, rfl, cut_append_left_iff.1 h⟩
  · left
    constructor
    · have hor := prefix_or_prefix_of_prefix h.isPrefix (prefix_append front back)
      exact hor.resolve_right hfront
    · rintro rfl
      exact hfront (prefix_refl cut)

end Cut

theorem last_group :
    ∀ b : UInt8, b.toNat < 128 → (b ||| 0) &&& 0x7f = b ∧ (b ||| 0) &&& 0x80 ≠ 0x80 := by
  decide +kernel

theorem marked_group :
    ∀ b : UInt8, b.toNat < 128 → (b ||| 0x80) &&& 0x7f = b ∧ (b ||| 0x80) &&& 0x80 = 0x80 := by
  decide +kernel

theorem toNat_low_group (n : ℕ) : (UInt8.ofNat (n % 128)).toNat = n % 128 := by
  rw [UInt8.toNat_ofNat']
  omega

section Read

variable {modulus : ℕ}

/-- One group with a mark. -/
theorem readVlqFrom_marked {n m size : ℕ} (h : n * 128 + m % 128 = m) (hm : m + 1 < modulus)
    (rest : List UInt8) :
    readVlqFrom modulus n size ((UInt8.ofNat (m % 128) ||| 0x80) :: rest)
      = readVlqFrom modulus (m + 1) (size + 1) rest := by
  obtain ⟨hlow, hhigh⟩ := marked_group _ ((toNat_low_group m).trans_lt (Nat.mod_lt m (by norm_num)))
  rw [readVlqFrom, hlow, toNat_low_group, h, hhigh, Nat.mod_eq_of_lt (by omega),
    Nat.mod_eq_of_lt hm, if_neg (by simp)]

/-- The last group. -/
theorem readVlqFrom_last {n m size : ℕ} (h : n * 128 + m % 128 = m) (hm : m < modulus)
    (rest : List UInt8) :
    readVlqFrom modulus n size ((UInt8.ofNat (m % 128) ||| 0) :: rest) = (m, size + 1) := by
  obtain ⟨hlow, hhigh⟩ := last_group _ ((toNat_low_group m).trans_lt (Nat.mod_lt m (by norm_num)))
  rw [readVlqFrom, hlow, toNat_low_group, h, if_pos hhigh, Nat.mod_eq_of_lt hm]

/-- The bytes before the last one are read as one more than the number that they write, which is
what was taken off when they were shifted out. -/
theorem readVlqFrom_reverse {turns n : ℕ} (hturns : n < 128 ^ (turns + 1)) (hn : n + 1 < modulus)
    (size : ℕ) (rest : List UInt8) :
    readVlqFrom modulus 0 size ((vlqBytes (turns + 1) 0x80 n).reverse ++ rest)
      = readVlqFrom modulus (n + 1) (size + vlqSize (turns + 1) n) rest := by
  induction turns generalizing n rest with
  | zero =>
    rw [vlqBytes, vlqSize, if_pos (by omega), if_pos (by omega), reverse_singleton,
      singleton_append, readVlqFrom_marked (by omega) hn]
  | succ turns ih =>
    rw [vlqBytes, vlqSize]
    split_ifs with hsmall
    · rw [reverse_singleton, singleton_append, readVlqFrom_marked (by omega) hn]
    · have hshift : n / 128 - 1 < 128 ^ (turns + 1) := by
        rw [pow_succ'] at hturns
        omega
      rw [reverse_cons, append_assoc, ih hshift (by omega), singleton_append,
        readVlqFrom_marked (by omega) hn, Nat.add_assoc]

/-- A number is read back from its bytes, whatever follows them. -/
theorem readVlq_vlq_append {turns n : ℕ} (hturns : n < 128 ^ (turns + 1)) (hn : n < modulus)
    (rest : List UInt8) :
    readVlq modulus (vlq (turns + 1) n ++ rest) = (n, vlqSize (turns + 1) n) := by
  rw [readVlq, vlq, vlqBytes, vlqSize]
  split_ifs with hsmall
  · rw [reverse_singleton, singleton_append, readVlqFrom_last (by omega) hn]
  · obtain ⟨turns, rfl⟩ : ∃ t, turns = t + 1 := Nat.exists_eq_succ_of_ne_zero fun h0 => by
      rw [h0] at hturns
      omega
    have hshift : n / 128 - 1 < 128 ^ (turns + 1) := by
      rw [pow_succ'] at hturns
      omega
    rw [reverse_cons, append_assoc, readVlqFrom_reverse hshift (by omega), singleton_append,
      readVlqFrom_last (by omega) hn, Nat.zero_add]

theorem readVlqFrom_snd_le (n size : ℕ) (bs : List UInt8) :
    (readVlqFrom modulus n size bs).2 ≤ size + bs.length := by
  induction bs generalizing n size with
  | nil => exact le_rfl
  | cons val rest ih =>
    rw [readVlqFrom, length_cons]
    split_ifs
    · exact Nat.add_le_add_left (Nat.le_add_left 1 _) _
    · exact (ih _ _).trans (by omega)

/-- No more is read than is there. -/
theorem readVlq_snd_le (bs : List UInt8) : (readVlq modulus bs).2 ≤ bs.length := by
  have h : (readVlqFrom modulus 0 0 bs).2 ≤ 0 + bs.length := readVlqFrom_snd_le 0 0 bs
  rwa [Nat.zero_add] at h

/-- A part of the bytes that ends before the last one is all of the bytes of a smaller number, but
for the mark of the last one. -/
theorem exists_take_reverse_vlqBytes {turns n k : ℕ} (mask : UInt8) (hturns : n < 128 ^ turns)
    (hk : 0 < k) (hlt : k < vlqSize turns n) :
    ∃ t m, m < 128 ^ (t + 1) ∧ m + 1 ≤ n / 128 ∧ vlqSize (t + 1) m = k ∧
      (vlqBytes turns mask n).reverse.take k = (vlqBytes (t + 1) 0x80 m).reverse := by
  induction turns generalizing n mask with
  | zero => exact absurd hlt (by simp [vlqSize])
  | succ turns ih =>
    rw [vlqSize] at hlt
    split_ifs at hlt with hsmall
    · omega
    · have hshift : n / 128 - 1 < 128 ^ turns := by
        rw [pow_succ'] at hturns
        omega
      have hbytes : (vlqBytes (turns + 1) mask n).reverse.take k
          = (vlqBytes turns 0x80 (n / 128 - 1)).reverse.take k := by
        rw [vlqBytes, if_neg hsmall, reverse_cons, take_append_of_le_length]
        rw [length_reverse, length_vlqBytes]
        omega
      rw [hbytes]
      rcases Nat.lt_or_ge k (vlqSize turns (n / 128 - 1)) with hk' | hk'
      · obtain ⟨t, m, ht, hm, hsize, htake⟩ := ih 0x80 hshift hk'
        exact ⟨t, m, ht, by omega, hsize, htake⟩
      · obtain ⟨t, rfl⟩ : ∃ t, turns = t + 1 := Nat.exists_eq_succ_of_ne_zero fun h0 => by
          subst h0
          simp only [vlqSize] at hlt
          omega
        refine ⟨t, n / 128 - 1, hshift, by omega, by omega, ?_⟩
        rw [take_of_length_le]
        rw [length_reverse, length_vlqBytes]
        exact hk'

/-- A number that is cut off is read to its end, as a smaller one. Two bytes already stand for more
than any single one. -/
theorem exists_readVlq_take {turns n k : ℕ} (hturns : n < 128 ^ turns) (hn : n < modulus)
    (hk : 0 < k) (hlt : k < vlqSize turns n) :
    ∃ m, readVlq modulus ((vlq turns n).take k) = (m, k) ∧ 0 < m ∧ m ≤ n / 128 ∧
    (2 ≤ k → 128 < m) := by
  obtain ⟨t, m, ht, hm, hsize, htake⟩ := exists_take_reverse_vlqBytes 0 hturns hk hlt
  have hread : readVlqFrom modulus 0 0 ((vlqBytes (t + 1) 0x80 m).reverse ++ []) = _ :=
    readVlqFrom_reverse ht (by omega) 0 []
  rw [append_nil, hsize, Nat.zero_add, readVlqFrom] at hread
  refine ⟨m + 1, by rw [readVlq, vlq, htake, hread], by omega, hm, fun hk2 => ?_⟩
  rw [vlqSize] at hsize
  split_ifs at hsize with hsmall
  · omega
  · omega

/-- The number that marked bytes are read as, the least significant first: its digits go from one to
128. -/
def markedValue : List UInt8 → ℕ
  | [] => 0
  | b :: rest => markedValue rest * 128 + (b &&& 0x7f).toNat + 1

theorem group_or_mark : ∀ b : UInt8, (b &&& 0x7f) ||| (b &&& 0x80) = b ∧ (b &&& 0x7f).toNat < 128 ∧
    (b &&& 0x80 ≠ 0x80 → b &&& 0x80 = 0) := by
  decide +kernel

/-- All groups with marks. -/
theorem readVlqFrom_reverse_append {marked : List UInt8} (h : ∀ b ∈ marked, b &&& 0x80 = 0x80)
    (size : ℕ) (rest : List UInt8) : readVlqFrom modulus 0 size (marked.reverse ++ rest) =
      readVlqFrom modulus (markedValue marked % modulus) (size + marked.length) rest := by
  induction marked generalizing rest with
  | nil => rw [markedValue, Nat.zero_mod]; rfl
  | cons b marked ih =>
    obtain ⟨hb, h⟩ := forall_mem_cons.1 h
    have hmod : ((markedValue marked % modulus * 128 + (b &&& 0x7f).toNat) % modulus + 1) %
        modulus = markedValue (b :: marked) % modulus :=
      ((Nat.mod_modEq _ _).trans (((Nat.mod_modEq _ _).mul_right 128).add_right _)).add_right 1
    rw [reverse_cons, append_assoc, ih h, singleton_append, readVlqFrom,
      if_neg (not_not.2 hb), hmod]
    rfl

/-- A byte that is not the last one is marked, if all of the bytes are read. -/
theorem marked_of_readVlqFrom {front : List UInt8} {last : UInt8} {n size : ℕ}
    (h : (readVlqFrom modulus n size (front ++ [last])).2 = size + front.length + 1) :
    ∀ b ∈ front, b &&& 0x80 = 0x80 := by
  induction front generalizing n size with
  | nil => simp
  | cons b front ih =>
    rw [cons_append, readVlqFrom, length_cons] at h
    split_ifs at h with hb
    · simp only at h
      omega
    · exact forall_mem_cons.2 ⟨not_not.1 hb, ih (h.trans (by omega))⟩

/-- The marked groups are known by their value. -/
theorem markedValue_inj {xs ys : List UInt8} (hx : ∀ b ∈ xs, b &&& 0x80 = 0x80)
    (hy : ∀ b ∈ ys, b &&& 0x80 = 0x80) (h : markedValue xs = markedValue ys) : xs = ys := by
  induction xs generalizing ys with
  | nil => cases ys with
    | nil => rfl
    | cons c ys => rw [markedValue, markedValue] at h; omega
  | cons b xs ih => cases ys with
    | nil => rw [markedValue, markedValue] at h; omega
    | cons c ys =>
      obtain ⟨hb, hx⟩ := forall_mem_cons.1 hx
      obtain ⟨hc, hy⟩ := forall_mem_cons.1 hy
      obtain ⟨hb', hblt, -⟩ := group_or_mark b
      obtain ⟨hc', hclt, -⟩ := group_or_mark c
      rw [markedValue, markedValue] at h
      have hgroup : b &&& 0x7f = c &&& 0x7f := UInt8.toNat_inj.1 (by omega)
      rw [ih hx hy (by omega), ← hb', ← hc', hgroup, hb, hc]

/-- Bytes that are read to their end, which is a byte without the mark, as a number below the
modulus. A modulus of zero is no bound to what is read. -/
structure Whole (modulus : ℕ) (bs : List UInt8) : Prop where
  read : (readVlq modulus bs).2 = bs.length
  last : ∃ b, bs.getLast? = some b ∧ b &&& 0x80 ≠ 0x80
  lt : (readVlq 0 bs).1 < modulus

/-- A whole number is marked groups and a last one. -/
theorem Whole.exists_marked {bs : List UInt8} (h : Whole modulus bs) :
    ∃ marked last, bs = marked.reverse ++ [last] ∧
    (∀ b ∈ marked, b &&& 0x80 = 0x80) ∧ last &&& 0x80 = 0 ∧
      (readVlq modulus bs).1 = markedValue marked * 128 + (last &&& 0x7f).toNat := by
  obtain ⟨hread, ⟨last, hlast, hend⟩, hlt⟩ := h
  obtain ⟨front, rfl⟩ := getLast?_eq_some_iff.1 hlast
  have hmarked : ∀ b ∈ front.reverse, b &&& 0x80 = 0x80 := fun b hb =>
    marked_of_readVlqFrom (hread.trans (by simp)) b (mem_reverse.1 hb)
  have hvalue : ∀ m, (readVlq m (front ++ [last])).1 =
      (markedValue front.reverse % m * 128 + (last &&& 0x7f).toNat) % m := by
    intro m
    have hfront : readVlqFrom m 0 0 (front.reverse.reverse ++ [last]) = _ :=
      readVlqFrom_reverse_append hmarked 0 [last]
    rw [reverse_reverse] at hfront
    rw [readVlq, hfront, readVlqFrom, if_pos hend]
  rw [hvalue, Nat.mod_zero, Nat.mod_zero] at hlt
  refine ⟨front.reverse, last, by rw [reverse_reverse], hmarked, (group_or_mark last).2.2 hend, ?_⟩
  rw [hvalue, Nat.mod_eq_of_lt (a := markedValue _) (by omega), Nat.mod_eq_of_lt hlt]

/-- No number has two forms. -/
theorem Whole.eq_of_readVlq_eq {bs cs : List UInt8} (hb : Whole modulus bs) (hc : Whole modulus cs)
    (h : (readVlq modulus bs).1 = (readVlq modulus cs).1) : bs = cs := by
  obtain ⟨xs, x, rfl, hxs, hx, hvalue⟩ := hb.exists_marked
  obtain ⟨ys, y, rfl, hys, hy, hvalue'⟩ := hc.exists_marked
  obtain ⟨hx', hxlt, -⟩ := group_or_mark x
  obtain ⟨hy', hylt, -⟩ := group_or_mark y
  rw [hvalue, hvalue'] at h
  have hgroup : x &&& 0x7f = y &&& 0x7f := UInt8.toNat_inj.1 (by omega)
  rw [markedValue_inj hxs hys (by omega), ← hx', ← hy', hgroup, hx, hy]

end Read

end Hcashd.Lib
