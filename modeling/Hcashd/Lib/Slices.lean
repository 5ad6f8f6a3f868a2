import Mathlib

/-!
# Views of shared arrays

A slice is a view of an array: where it starts, how many elements it shows, and how many more it may
take. Arrays are never freed, so a heap is a list of arrays and a new array comes at its end. Taking
part of a slice and making new arrays leave what every slice shows as it is (`read_of_isPrefix`).
Appending to a slice that has room writes into its array, and another slice keeps what it shows
exactly when the elements written agree with those that it shows at their places
(`read_append_of_room`).
-/

namespace Hcashd.Lib

open List

variable {α : Type*} {xs ys : List α} {i : ℕ}

/-- `len` elements of an array from `off` on, with room for `cap`. -/
structure Slice where
  arr : ℕ
  off : ℕ
  len : ℕ
  cap : ℕ
  deriving DecidableEq, Repr

/-- The slice that shows nothing. -/
def Slice.nil : Slice := ⟨0, 0, 0, 0⟩

/-- `s[i:j]`. -/
def Slice.sub (s : Slice) (i j : ℕ) : Slice := ⟨s.arr, s.off + i, j - i, s.cap - i⟩

/-- The arrays, by number. -/
abbrev Heap (α : Type*) := List (List α)

/-- A list with some of its elements replaced. -/
def overwrite {α : Type*} (xs : List α) (i : ℕ) (ys : List α) : List α :=
  xs.take i ++ ys ++ xs.drop (i + ys.length)

theorem length_overwrite (h : i + ys.length ≤ xs.length) :
    (overwrite xs i ys).length = xs.length := by
  simp only [overwrite, length_append, length_take, length_drop]
  omega

/-- What is overwritten, and what is not. -/
theorem getElem?_overwrite (h : i + ys.length ≤ xs.length) (j : ℕ) :
    (overwrite xs i ys)[j]? = if i ≤ j ∧ j < i + ys.length then ys[j - i]? else xs[j]? := by
  have hfirst : (xs.take i).length = i := length_take_of_le (by omega)
  have hboth : (xs.take i ++ ys).length = i + ys.length := by rw [length_append, hfirst]
  unfold overwrite
  split_ifs with hj
  · rw [getElem?_append_left (by omega), getElem?_append_right (by omega), hfirst]
  · rcases Nat.lt_or_ge j i with hlow | hhigh
    · rw [getElem?_append_left (by omega), getElem?_append_left (by omega),
        getElem?_take_of_lt hlow]
    · rw [getElem?_append_right (by omega), hboth, getElem?_drop]
      congr 1
      omega

namespace Heap

variable {α : Type*}

/-- An array of the heap. -/
def array (h : Heap α) (i : ℕ) : List α := h.getD i []

/-- What a slice shows. -/
def read (h : Heap α) (s : Slice) : List α := ((h.array s.arr).drop s.off).take s.len

/-- A slice shows no more than it may, and may take no more than its array has. -/
def Fits (h : Heap α) (s : Slice) : Prop := s.len ≤ s.cap ∧ s.off + s.cap ≤ (h.array s.arr).length

/-- A new array, with a slice of its first elements. -/
def alloc [Inhabited α] (h : Heap α) (xs : List α) (cap : ℕ) : Heap α × Slice :=
  (h ++ [xs ++ replicate (cap - xs.length) default], ⟨h.length, 0, xs.length, max cap xs.length⟩)

/-- `append(b, a...)`: into the array of `b` if there is room, into a new array with room for `cap`
otherwise. -/
def append [Inhabited α] (h : Heap α) (b a : Slice) (cap : ℕ) : Heap α × Slice :=
  if b.len + a.len ≤ b.cap then
    (h.set b.arr (overwrite (h.array b.arr) (b.off + b.len) (h.read a)),
      { b with len := b.len + a.len })
  else h.alloc (h.read b ++ h.read a) cap

/-! ## Reading -/

theorem fits_nil (h : Heap α) : h.Fits Slice.nil := ⟨Nat.le_refl 0, Nat.zero_le _⟩

variable {h : Heap α} {s : Slice}

/-- A slice has its length. -/
theorem Fits.length_read (hs : h.Fits s) : (h.read s).length = s.len := by
  have := hs.1
  have := hs.2
  simp only [read, length_take, length_drop]
  omega

theorem getElem?_read {i : ℕ} (hi : i < s.len) : (h.read s)[i]? = (h.array s.arr)[s.off + i]? := by
  rw [read, getElem?_take_of_lt hi, getElem?_drop]

/-- A part of a slice fits. -/
theorem Fits.sub (hs : h.Fits s) {i j : ℕ} (hij : i ≤ j) (hj : j ≤ s.cap) : h.Fits (s.sub i j) := by
  have := hs.2
  constructor
  · show j - i ≤ s.cap - i
    omega
  · show s.off + i + (s.cap - i) ≤ (h.array s.arr).length
    omega

/-- There is room for the appended bytes. -/
theorem Fits.room {b a : Slice} (hb : h.Fits b) (ha : h.Fits a) (hroom : b.len + a.len ≤ b.cap) :
    b.off + b.len + (h.read a).length ≤ (h.array b.arr).length := by
  have := hb.2
  rw [ha.length_read]
  omega

/-! ## New arrays -/

theorem array_of_isPrefix {h h' : Heap α} (hpre : h <+: h') {i : ℕ} (hi : i < h.length) :
    h'.array i = h.array i := by
  obtain ⟨t, rfl⟩ := hpre
  rw [array, array, getD_append _ _ _ _ hi]

theorem length_array_le_of_isPrefix {h h' : Heap α} (hpre : h <+: h') (i : ℕ) :
    (h.array i).length ≤ (h'.array i).length := by
  rcases Nat.lt_or_ge i h.length with hi | hi
  · rw [array_of_isPrefix hpre hi]
  · rw [array, getD_eq_default _ _ hi]
    exact Nat.zero_le _

theorem Fits.of_isPrefix {h h' : Heap α} (hpre : h <+: h') (hs : h.Fits s) : h'.Fits s :=
  ⟨hs.1, hs.2.trans (length_array_le_of_isPrefix hpre s.arr)⟩

/-- Slices read the same on a heap that has grown. -/
theorem read_of_isPrefix {h h' : Heap α} (hpre : h <+: h') (hs : h.Fits s) :
    h'.read s = h.read s := by
  rcases Nat.lt_or_ge s.arr h.length with hi | hi
  · rw [read, read, array_of_isPrefix hpre hi]
  · -- A slice of an array that is not there shows nothing.
    have hlen : s.len = 0 := by
      have hfits := hs.2
      rw [array, getD_eq_default _ _ hi, length_nil] at hfits
      have := hs.1
      omega
    rw [read, read, hlen, take_zero, take_zero]

section

variable [Inhabited α]

theorem isPrefix_alloc (h : Heap α) (xs : List α) (cap : ℕ) : h <+: (h.alloc xs cap).1 :=
  prefix_append _ _

/-- A new slice fits. -/
theorem fits_alloc (h : Heap α) (xs : List α) (cap : ℕ) :
    (h.alloc xs cap).1.Fits (h.alloc xs cap).2 := by
  constructor
  · exact Nat.le_max_right _ _
  · show 0 + max cap xs.length ≤ ((h.alloc xs cap).1.array h.length).length
    rw [alloc, array, getD_append_right _ _ _ _ (Nat.le_refl _), Nat.sub_self]
    show 0 + max cap xs.length ≤ (xs ++ replicate (cap - xs.length) default).length
    rw [length_append, length_replicate]
    omega

/-! ## Appending -/

variable {h : Heap α} {b a s : Slice} {cap : ℕ}

/-- Appending in place. -/
theorem append_of_room (hroom : b.len + a.len ≤ b.cap) : h.append b a cap =
    (h.set b.arr (overwrite (h.array b.arr) (b.off + b.len) (h.read a)),
      { b with len := b.len + a.len }) :=
  if_pos hroom

/-- Appending to a copy. -/
theorem append_of_no_room (hroom : ¬ b.len + a.len ≤ b.cap) :
    h.append b a cap = h.alloc (h.read b ++ h.read a) cap := if_neg hroom

/-- Only the array in place changes. -/
theorem array_append_of_room (hb : h.Fits b) (hpos : 0 < a.len)
    (hroom : b.len + a.len ≤ b.cap) (i : ℕ) :
    (h.append b a cap).1.array i =
      if i = b.arr then overwrite (h.array b.arr) (b.off + b.len) (h.read a) else h.array i := by
  have hin : b.arr < h.length := by
    by_contra hout
    have hfits := hb.2
    rw [array, getD_eq_default _ _ (not_lt.1 hout), length_nil] at hfits
    omega
  rw [append_of_room hroom]
  simp only [array, getD_eq_getElem?_getD]
  split_ifs with hi
  · rw [hi, getElem?_set_self hin, Option.getD_some]
  · rw [getElem?_set_ne (Ne.symm hi)]

/-- Slices stay inside their arrays. -/
theorem Fits.append (hb : h.Fits b) (ha : h.Fits a) (hpos : 0 < a.len) (hs : h.Fits s) :
    (h.append b a cap).1.Fits s := by
  by_cases hroom : b.len + a.len ≤ b.cap
  · refine ⟨hs.1, hs.2.trans_eq ?_⟩
    rw [array_append_of_room hb hpos hroom]
    split_ifs with hi
    · rw [length_overwrite (hb.room ha hroom), hi]
    · rfl
  · rw [append_of_no_room hroom]
    exact hs.of_isPrefix (isPrefix_alloc _ _ _)

/-- The result fits. -/
theorem Fits.append_result (hb : h.Fits b) (ha : h.Fits a) (hpos : 0 < a.len) :
    (h.append b a cap).1.Fits (h.append b a cap).2 := by
  by_cases hroom : b.len + a.len ≤ b.cap
  · have hkept : (h.append b a cap).1.Fits b := hb.append ha hpos hb
    rw [append_of_room hroom] at hkept ⊢
    exact ⟨hroom, hkept.2⟩
  · rw [append_of_no_room hroom]
    exact fits_alloc _ _ _

/-- What is written behind `b` agrees with what the slice `s` shows there. -/
def Agrees (h : Heap α) (b a s : Slice) : Prop :=
  s.arr = b.arr → ∀ i < s.len, ∀ k < a.len, s.off + i = b.off + b.len + k →
    (h.read a)[k]? = (h.read s)[i]?

/-- With room, a slice keeps what it shows exactly when it agrees with what is written. -/
theorem read_append_of_room (hb : h.Fits b) (ha : h.Fits a) (hpos : 0 < a.len)
    (hroom : b.len + a.len ≤ b.cap)
    (hs : h.Fits s) : (h.append b a cap).1.read s = h.read s ↔ h.Agrees b a s := by
  have hs' : (h.append b a cap).1.Fits s := hb.append ha hpos hs
  have hlen : (h.read a).length = a.len := ha.length_read
  have hat : ∀ i < s.len, ((h.append b a cap).1.read s)[i]? =
      if s.arr = b.arr ∧ b.off + b.len ≤ s.off + i ∧ s.off + i < b.off + b.len + a.len then
        (h.read a)[s.off + i - (b.off + b.len)]? else (h.read s)[i]? := by
    intro i hi
    rw [getElem?_read hi, getElem?_read hi, array_append_of_room hb hpos hroom]
    by_cases harr : s.arr = b.arr
    · simp only [harr, if_true, true_and, getElem?_overwrite (hb.room ha hroom), hlen]
    · simp only [harr, if_false, false_and]
  constructor
  · intro hsame harr i hi k hk hplace
    have := hat i hi
    rw [hsame, if_pos ⟨harr, by omega, by omega⟩, hplace, Nat.add_sub_cancel_left] at this
    exact this.symm
  · intro hagrees
    apply ext_getElem?
    intro i
    rcases Nat.lt_or_ge i s.len with hi | hi
    · rw [hat i hi]
      split_ifs with hin
      · exact hagrees hin.1 i hi _ (by omega) (by omega)
      · rfl
    · rw [getElem?_eq_none (hs'.length_read.trans_le hi),
        getElem?_eq_none (hs.length_read.trans_le hi)]

end

end Heap

end Hcashd.Lib
