import Mathlib

/-!
# Merkle trees over rows of any length

The row above a row of hashes has one node for two neighbours; a last node without a neighbour is
paired with itself. The rows of two trees with one root are equal from the root down as long as the
hash tells apart the pairs that it was applied to. With rows of one length nothing else is needed
(`eq_of_iterate_parents_eq`). With rows of any length two more things are: no leaf may be a node of
the other tree, and no leaf may occur twice, since a row that ends with an odd node has the root of
the same row with that node repeated (`eq_of_root_eq`). The first leaf is exempt from both.
-/

namespace Hcashd.Lib

open List Function

universe u

/-- Equal images of lists whose elements a function tells apart. -/
theorem eq_of_map_eq_map {α β : Type*} {f : α → β} {s : Set α} (hf : Set.InjOn f s) {xs ys : List α}
    (hx : ∀ x ∈ xs, x ∈ s) (hy : ∀ y ∈ ys, y ∈ s) (h : xs.map f = ys.map f) : xs = ys := by
  induction xs generalizing ys with
  | nil => exact (map_eq_nil_iff.1 h.symm).symm
  | cons x xs ih =>
    cases ys with
    | nil => cases h
    | cons y ys =>
      rw [map_cons, map_cons, cons.injEq] at h
      rw [forall_mem_cons] at hx hy
      rw [hf hx.1 hy.1 h.1, ih hx.2 hy.2 h.2]

variable {α : Type u} {row xs ys : List α}

/-- The pairs of neighbours of a row. -/
def siblings : List α → List (α × α)
  | [] => []
  | [a] => [(a, a)]
  | a :: b :: row => (a, b) :: siblings row

theorem length_siblings (row : List α) : (siblings row).length = (row.length + 1) / 2 := by
  fun_induction siblings row with
  | case1 | case2 => simp
  | case3 a b row ih =>
    simp only [length_cons, ih]
    omega

theorem map_fst_siblings_sublist (row : List α) : ((siblings row).map Prod.fst).Sublist row := by
  fun_induction siblings row with
  | case1 | case2 => exact Sublist.refl _
  | case3 a b row ih => exact (ih.cons b).cons_cons a

/-- Rows of one length are known by their pairs. -/
theorem eq_of_siblings_eq_of_length (hlength : xs.length = ys.length)
    (h : siblings xs = siblings ys) : xs = ys := by
  fun_induction siblings xs generalizing ys with
  | case1 => exact (length_eq_zero_iff.1 hlength.symm).symm
  | case2 a =>
    obtain ⟨b, rfl⟩ := length_eq_one_iff.1 hlength.symm
    rw [siblings, cons.injEq, Prod.mk.injEq] at h
    rw [h.1.1]
  | case3 a b xs ih =>
    match ys with
    | c :: d :: ys =>
      rw [siblings, cons.injEq, Prod.mk.injEq] at h
      rw [h.1.1, h.1.2, ih (by simpa using hlength) h.2]

/-- The pairs of rows without repetition determine them: the row with an even number of nodes would
otherwise end with a pair of equal ones. -/
theorem eq_of_siblings_eq_of_nodup (hx : xs.Nodup) (hy : ys.Nodup) (h : siblings xs = siblings ys) :
    xs = ys := by
  fun_induction siblings xs generalizing ys with
  | case1 =>
    have hlength := congrArg length h
    rw [length_siblings, length_nil] at hlength
    exact (length_eq_zero_iff.1 (by omega)).symm
  | case2 a =>
    match ys with
    | [b] =>
      rw [siblings, cons.injEq, Prod.mk.injEq] at h
      rw [h.1.1]
    | b :: c :: ys =>
      rw [siblings, cons.injEq, Prod.mk.injEq] at h
      simp [← h.1.1, ← h.1.2] at hy
  | case3 a b xs ih =>
    match ys with
    | [c] =>
      rw [siblings, cons.injEq, Prod.mk.injEq] at h
      simp [h.1.1, h.1.2] at hx
    | c :: d :: ys =>
      rw [siblings, cons.injEq, Prod.mk.injEq] at h
      rw [h.1.1, h.1.2, ih hx.of_cons.of_cons hy.of_cons.of_cons h.2]

/-- So are rows without repetitions, whatever their lengths. -/
theorem eq_of_siblings_eq (hxl : 2 ≤ xs.length) (hyl : 2 ≤ ys.length)
    (hx : xs.tail.Nodup) (hy : ys.tail.Nodup) (h : siblings xs = siblings ys) : xs = ys := by
  match xs, ys with
  | a :: b :: xs, c :: d :: ys =>
    rw [siblings, siblings, cons.injEq, Prod.mk.injEq] at h
    rw [h.1.1, h.1.2, eq_of_siblings_eq_of_nodup hx.of_cons hy.of_cons h.2]

variable (hash : α → α → α)

/-- The row above a row. -/
def parents (row : List α) : List α := (siblings row).map fun p => hash p.1 p.2

/-- The pairs that are hashed on the way up from a row, for a number of rows. -/
def hashed : ℕ → List α → List (α × α)
  | 0, _ => []
  | height + 1, row => siblings row ++ hashed height (parents hash row)

/-- The number of rows above the leaves. -/
def treeHeight (row : List α) : ℕ := Nat.clog 2 row.length

variable {hash}

/-- A row has half as many parents, rounded up. -/
theorem length_parents (row : List α) : (parents hash row).length = (row.length + 1) / 2 := by
  rw [parents, length_map, length_siblings]

theorem length_iterate_parents_le {height : ℕ} (h : row.length ≤ 2 ^ height) :
    ((parents hash)^[height] row).length ≤ 1 := by
  induction height generalizing row with
  | zero => exact h
  | succ height ih =>
    rw [iterate_succ_apply]
    apply ih
    rw [length_parents]
    rw [pow_succ] at h
    omega

theorem lt_length_iterate_parents {i k : ℕ} (h : 2 ^ (i + k) < row.length) :
    2 ^ k < ((parents hash)^[i] row).length := by
  induction i generalizing row with
  | zero => simpa using h
  | succ i ih =>
    rw [iterate_succ_apply]
    apply ih
    rw [length_parents]
    have hpow : 2 ^ (i + 1 + k) = 2 * 2 ^ (i + k) := by ring
    omega

theorem iterate_parents_ne_nil {i : ℕ} (h : row ≠ []) : (parents hash)^[i] row ≠ [] := by
  induction i generalizing row with
  | zero => exact h
  | succ i ih =>
    rw [iterate_succ_apply]
    apply ih
    have hlength : (parents hash row).length = _ := length_parents row
    have hpos := length_pos_iff.2 h
    apply ne_nil_of_length_pos
    omega

/-- The rows end in a root. -/
theorem exists_root (h : row ≠ []) : ∃ root, (parents hash)^[treeHeight row] row = [root] := by
  apply length_eq_one_iff.1
  exact le_antisymm (length_iterate_parents_le (Nat.le_pow_clog one_lt_two row.length))
    (length_pos_iff.2 (iterate_parents_ne_nil h))

/-- Every inner node is the hash of a pair. -/
theorem exists_hashed_of_mem_iterate {i : ℕ} (hi : i ≠ 0) {x : α}
    (hx : x ∈ (parents hash)^[i] row) : ∃ p ∈ hashed hash i row, hash p.1 p.2 = x := by
  induction i generalizing row with
  | zero => exact absurd rfl hi
  | succ i ih =>
    rw [iterate_succ_apply] at hx
    by_cases h0 : i = 0
    · subst h0
      obtain ⟨p, hp, rfl⟩ := mem_map.1 hx
      exact ⟨p, mem_append_left _ hp, rfl⟩
    · obtain ⟨p, hp, rfl⟩ := ih h0 hx
      exact ⟨p, mem_append_right _ hp, rfl⟩

theorem hashed_add (i k : ℕ) (row : List α) :
    hashed hash (i + k) row = hashed hash i row ++ hashed hash k ((parents hash)^[i] row) := by
  induction i generalizing row with
  | zero => simp [hashed]
  | succ i ih =>
    rw [Nat.succ_add, hashed, ih, hashed, iterate_succ_apply, append_assoc]

section Injective

variable {pairs : Set (α × α)} (hinj : Set.InjOn (fun p => hash p.1 p.2) pairs) {height : ℕ}
include hinj

/-- Without collisions parents do not repeat either. -/
theorem nodup_tail_parents (hrow : row.tail.Nodup) (hp : ∀ p ∈ siblings row, p ∈ pairs) :
    (parents hash row).tail.Nodup := by
  match row with
  | [] | [a] => exact nodup_nil
  | a :: b :: row =>
    rw [siblings, forall_mem_cons] at hp
    refine Nodup.map_on (fun p hp1 q hq1 heq => ?_)
      (hrow.of_cons.sublist (map_fst_siblings_sublist _)).of_map
    exact hinj (hp.2 p hp1) (hp.2 q hq1) heq

theorem nodup_tail_iterate {i : ℕ} (hrow : row.tail.Nodup)
    (hp : ∀ p ∈ hashed hash i row, p ∈ pairs) : ((parents hash)^[i] row).tail.Nodup := by
  induction i generalizing row with
  | zero => exact hrow
  | succ i ih =>
    rw [hashed, forall_mem_append] at hp
    exact ih (nodup_tail_parents hinj hrow hp.1) hp.2

/-- Without collisions a row above determines the leaves. -/
theorem eq_of_iterate_parents_eq (hlength : xs.length = ys.length)
    (hx : ∀ p ∈ hashed hash height xs, p ∈ pairs) (hy : ∀ p ∈ hashed hash height ys, p ∈ pairs)
    (h : (parents hash)^[height] xs = (parents hash)^[height] ys) : xs = ys := by
  induction height generalizing xs ys with
  | zero => exact h
  | succ height ih =>
    rw [hashed, forall_mem_append] at hx hy
    have hparents := ih (by rw [length_parents, length_parents, hlength]) hx.2 hy.2 h
    exact eq_of_siblings_eq_of_length hlength (eq_of_map_eq_map hinj hx.1 hy.1 hparents)

/-- The same for rows of different lengths. -/
theorem eq_of_iterate_parents_eq_of_nodup {height : ℕ} {xs ys : List α}
    (hxl : 2 ^ height < xs.length) (hyl : 2 ^ height < ys.length) (hxn : xs.tail.Nodup)
    (hyn : ys.tail.Nodup) (hx : ∀ p ∈ hashed hash (height + 1) xs, p ∈ pairs)
    (hy : ∀ p ∈ hashed hash (height + 1) ys, p ∈ pairs)
    (h : (parents hash)^[height + 1] xs = (parents hash)^[height + 1] ys) : xs = ys := by
  have hpow := Nat.one_le_two_pow (n := height)
  have hx' := hx
  have hy' := hy
  rw [hashed, forall_mem_append] at hx' hy'
  refine eq_of_siblings_eq (by omega) (by omega) hxn hyn (eq_of_map_eq_map hinj hx'.1 hy'.1 ?_)
  cases height with
  | zero => exact h
  | succ height =>
    have hlength :
        ∀ row : List α, 2 ^ (height + 1) < row.length → 2 ^ height < (parents hash row).length := by
      intro row hrow
      rw [length_parents]
      rw [pow_succ] at hrow
      omega
    exact eq_of_iterate_parents_eq_of_nodup (hlength xs hxl) (hlength ys hyl)
      (nodup_tail_parents hinj hxn hx'.1) (nodup_tail_parents hinj hyn hy'.1) hx'.2 hy'.2 h

/-- Without collisions the root determines the leaves. -/
theorem eq_of_root_eq_of_le (hxl : 2 ≤ xs.length) (hle : treeHeight xs ≤ treeHeight ys)
    (hxn : xs.tail.Nodup) (hyn : ys.tail.Nodup)
    (hx : ∀ p ∈ hashed hash (treeHeight xs) xs, p ∈ pairs)
    (hy : ∀ p ∈ hashed hash (treeHeight ys) ys, p ∈ pairs)
    (hleaf : ∀ x ∈ xs.tail, ∀ p ∈ pairs, hash p.1 p.2 ≠ x)
    (h : (parents hash)^[treeHeight xs] xs = (parents hash)^[treeHeight ys] ys) : xs = ys := by
  have hpos : 0 < treeHeight xs :=
    (Nat.lt_clog_iff_pow_lt one_lt_two).2 (by simpa using Nat.lt_of_succ_le hxl)
  obtain ⟨height, hheight⟩ := Nat.exists_eq_add_of_lt hpos
  rw [zero_add] at hheight
  obtain ⟨i, hi⟩ := Nat.exists_eq_add_of_le' hle
  have hxheight : 2 ^ height < xs.length :=
    (Nat.lt_clog_iff_pow_lt one_lt_two).1 (show height < treeHeight xs by omega)
  have hyheight : 2 ^ (i + height) < ys.length :=
    (Nat.lt_clog_iff_pow_lt one_lt_two).1 (show i + height < treeHeight ys by omega)
  rw [hi, hashed_add, forall_mem_append] at hy
  rw [hi, Nat.add_comm, iterate_add_apply] at h
  rw [hheight] at hx hy h
  -- the row of the higher tree that is as far below the root as the leaves of the other one
  have heq := eq_of_iterate_parents_eq_of_nodup hinj hxheight
    (lt_length_iterate_parents hyheight) hxn
    (nodup_tail_iterate hinj hyn hy.1) hx hy.2 h
  by_cases h0 : i = 0
  · subst h0
    exact heq
  · match xs with
    | a :: b :: xs =>
      have hb : b ∈ (parents hash)^[i] ys := heq ▸ mem_cons_of_mem _ mem_cons_self
      obtain ⟨p, hp, hhash⟩ := exists_hashed_of_mem_iterate h0 hb
      exact absurd hhash (hleaf b mem_cons_self p (hy.1 p hp))

/-- Rows of two or more leaves under one root are equal. -/
theorem eq_of_root_eq (hxl : 2 ≤ xs.length) (hyl : 2 ≤ ys.length) (hxn : xs.tail.Nodup)
    (hyn : ys.tail.Nodup) (hx : ∀ p ∈ hashed hash (treeHeight xs) xs, p ∈ pairs)
    (hy : ∀ p ∈ hashed hash (treeHeight ys) ys, p ∈ pairs)
    (hxleaf : ∀ x ∈ xs.tail, ∀ p ∈ pairs, hash p.1 p.2 ≠ x)
    (hyleaf : ∀ y ∈ ys.tail, ∀ p ∈ pairs, hash p.1 p.2 ≠ y)
    (h : (parents hash)^[treeHeight xs] xs = (parents hash)^[treeHeight ys] ys) : xs = ys := by
  rcases le_total (treeHeight xs) (treeHeight ys) with hle | hle
  · exact eq_of_root_eq_of_le hinj hxl hle hxn hyn hx hy hxleaf h
  · exact (eq_of_root_eq_of_le hinj hyl hle hyn hxn hy hx hyleaf h.symm).symm

end Injective

end Hcashd.Lib
