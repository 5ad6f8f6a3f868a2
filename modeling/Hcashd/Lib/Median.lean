import Mathlib

/-!
# The middle of a list

The middle element of the sorted list, and how it moves when elements are replaced one by one: the
middle is below a bound exactly if more than half of the elements are. It does not fall when the
next element is above it, as long as the list does not get shorter.
-/

namespace Hcashd.Lib

open List

variable {α : Type*} [LinearOrder α]

/-- The element in the middle of a list when it is sorted. -/
def middle (l : List α) (fallback : α) : α := (l.insertionSort (· ≤ ·)).getD (l.length / 2) fallback

variable {l : List α}

theorem getElem_lt_iff_of_sorted (hl : l.Pairwise (· ≤ ·)) {bound : α} {k : ℕ}
    (hk : k < l.length) : l[k] < bound ↔ k < l.countP (· < bound) := by
  induction l generalizing k with
  | nil => simp at hk
  | cons a l ih =>
    obtain ⟨ha, hl⟩ := pairwise_cons.1 hl
    by_cases hbound : a < bound
    · cases k with
      | zero => simp [hbound]
      | succ k =>
        rw [getElem_cons_succ, ih hl (by simpa using hk),
          countP_cons_of_pos (by simpa using hbound)]
        omega
    · -- All elements are at least the first one.
      have hnone : (a :: l).countP (· < bound) = 0 := by
        rw [countP_eq_zero]
        intro x hx
        obtain rfl | hx := mem_cons.1 hx
        · simpa using hbound
        · simpa using (not_lt.1 hbound).trans (ha x hx)
      have hge : a ≤ (a :: l)[k] := by
        obtain hk0 | hk0 := mem_cons.1 (getElem_mem hk)
        · exact hk0.ge
        · exact ha _ hk0
      rw [hnone]
      simpa using (not_lt.1 hbound).trans hge

/-- The middle is in the list. -/
theorem middle_mem (hne : l ≠ []) (fallback : α) : middle l fallback ∈ l := by
  have hperm := perm_insertionSort (· ≤ ·) l
  have hlt : l.length / 2 < (l.insertionSort (· ≤ ·)).length := by
    rw [hperm.length_eq]
    have := length_pos_iff.2 hne
    omega
  rw [middle, getD_eq_getElem _ _ hlt]
  exact hperm.mem_iff.1 (getElem_mem hlt)

/-- The middle is below a bound iff more than half of the list is. -/
theorem middle_lt_iff (hne : l ≠ []) (fallback bound : α) :
    middle l fallback < bound ↔ l.length / 2 < l.countP (· < bound) := by
  have hperm := perm_insertionSort (· ≤ ·) l
  have hlt : l.length / 2 < (l.insertionSort (· ≤ ·)).length := by
    rw [hperm.length_eq]
    have := length_pos_iff.2 hne
    omega
  rw [middle, getD_eq_getElem _ _ hlt, getElem_lt_iff_of_sorted (pairwise_insertionSort _ _) hlt,
    hperm.countP_eq]

/-- The middle does not fall when an element above it is put in front, where the list gets no
shorter. -/
theorem middle_le_middle_cons (hne : l ≠ []) {fallback a : α} (ha : middle l fallback < a)
    {n : ℕ} (hn : l.length ≤ n + 1) : middle l fallback ≤ middle (a :: l.take n) fallback := by
  by_contra hlt
  rw [not_le, middle_lt_iff (cons_ne_nil _ _), countP_cons_of_neg (by simpa using ha.le)] at hlt
  have hself : ¬ l.length / 2 < l.countP (· < middle l fallback) := fun h =>
    lt_irrefl _ ((middle_lt_iff hne fallback _).2 h)
  have hcount : (l.take n).countP (· < middle l fallback) ≤ l.countP (· < middle l fallback) :=
    (take_sublist n l).countP_le
  have hlength : l.length ≤ (a :: l.take n).length := by
    rw [length_cons, length_take]
    omega
  have : l.length / 2 ≤ (a :: l.take n).length / 2 := Nat.div_le_div_right hlength
  omega

end Hcashd.Lib
