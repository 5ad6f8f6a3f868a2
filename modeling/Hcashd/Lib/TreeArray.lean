import Hcashd.Lib.Avoids

/-!
# Trees in an array

The rows of a full binary tree stand one after the other in an array, the leaves first and the root
last. The array is filled from the front: two neighbours are read and the node above them is written
after the nodes that are there already. The loop reads only what has been written and writes only
what there is room for, and leaves the rows of the tree (`foldlM_fillTurn`).
-/

namespace Hcashd.Lib

open List

universe u

variable {ε α : Type u} (node : α → α → α)

/-- The row above a row, with a node for two neighbours. -/
def above : List α → List α
  | a :: b :: row => node a b :: above row
  | _ => []

/-- A row and the rows above it, up to a height. -/
def rows : ℕ → List α → List α
  | 0, row => row
  | height + 1, row => row ++ rows height (above node row)

/-- A turn of the loop that fills an array whose leaves are `width` in number. -/
def fillTurn (e : ε) (width : ℕ) (nodes : List α) (k : ℕ) : Except ε (List α) := do
  let left ← index e nodes (2 * k)
  let right ← index e nodes (2 * k + 1)
  store e nodes (width + k) (node left right)

theorem length_above (row : List α) : (above node row).length = row.length / 2 := by
  fun_induction above node row with
  | case1 a b row ih =>
    rw [length_cons, ih, length_cons, length_cons]
    omega
  | case2 row h =>
    match row, h with
    | [], _ | [a], _ => simp
    | a :: b :: row, h => exact absurd rfl (h a b row)

variable {row : List α}

theorem getElem?_above {k : ℕ} {a b : α} (ha : row[2 * k]? = some a)
    (hb : row[2 * k + 1]? = some b) :
    (above node row)[k]? = some (node a b) := by
  induction k generalizing row with
  | zero =>
    match row with
    | [] => cases ha
    | [c] => cases hb
    | c :: d :: row =>
      obtain rfl := Option.some.inj ha
      obtain rfl := Option.some.inj hb
      rfl
  | succ k ih =>
    match row with
    | [] => cases ha
    | [c] => cases hb
    | c :: d :: row =>
      rw [Nat.mul_succ, getElem?_cons_succ, getElem?_cons_succ] at ha hb
      rw [above, getElem?_cons_succ]
      exact ih ha hb

variable {height : ℕ}

section

variable (h : row.length = 2 ^ height)

include h

/-- The size of the array. -/
theorem length_rows : (rows node height row).length = 2 ^ height + (2 ^ height - 1) := by
  induction height generalizing row with
  | zero =>
    rw [rows, h]
    rfl
  | succ height ih =>
    have habove :
        (above node row).length = 2 ^ height := by rw [length_above node, h, pow_succ]; omega
    have hpos : 0 < 2 ^ height := by positivity
    rw [rows, length_append, h, ih habove, pow_succ]
    omega

/-- The last entry is the root. -/
theorem getLast?_rows :
    (rows node height row).getLast? = ((above node)^[height] row).head? := by
  induction height generalizing row with
  | zero =>
    obtain ⟨a, rfl⟩ := length_eq_one_iff.1 h
    rfl
  | succ height ih =>
    have habove :
        (above node row).length = 2 ^ height := by rw [length_above node, h, pow_succ]; omega
    have hpos : 0 < 2 ^ height := by positivity
    have hne : rows node height (above node row) ≠ [] := by
      rw [← length_pos_iff, length_rows node habove]
      omega
    rw [rows, getLast?_append_of_ne_nil _ hne, ih habove, Function.iterate_succ_apply]

/-- Each entry of a row above is the node of two entries below. -/
theorem getElem?_rows {k : ℕ} (hk : k < 2 ^ height - 1) :
    ∃ a b, (rows node height row)[2 * k]? = some a ∧ (rows node height row)[2 * k + 1]? = some b ∧
      (rows node height row)[2 ^ height + k]? = some (node a b) := by
  induction height generalizing row k with
  | zero => exact absurd hk (by simp)
  | succ height ih =>
    have habove :
        (above node row).length = 2 ^ height := by rw [length_above node, h, pow_succ]; omega
    have hback : ∀ j, (rows node (height + 1) row)[2 ^ (height + 1) + j]? =
        (rows node height (above node row))[j]? := by
      intro j
      rw [rows, getElem?_append_right (by omega), h, Nat.add_sub_cancel_left]
    rcases lt_or_ge k (2 ^ height) with hlow | hhigh
    · -- the neighbours are leaves
      have hwidth : 2 * k + 1 < row.length := by rw [h, pow_succ]; omega
      have hfront : ∀ j, j < row.length → (rows node (height + 1) row)[j]? = row[j]? :=
        fun j hj => by
        rw [rows, getElem?_append_left hj]
      have ha := getElem?_eq_getElem (show 2 * k < row.length by omega)
      have hb := getElem?_eq_getElem hwidth
      refine ⟨_, _, (hfront _ (by omega)).trans ha, (hfront _ hwidth).trans hb, ?_⟩
      rw [hback]
      have hnode := getElem?_above node ha hb
      cases height with
      | zero => exact hnode
      | succ height => rw [rows, getElem?_append_left (by omega), hnode]
    · -- the neighbours are nodes of the rows above
      obtain ⟨j, rfl⟩ := Nat.exists_eq_add_of_le hhigh
      obtain ⟨a, b, ha, hb, hnode⟩ :=
        ih habove (show j < 2 ^ height - 1 by rw [pow_succ] at hk; omega)
      refine ⟨a, b, ?_, ?_, (hback _).trans hnode⟩
      · rw [show 2 * (2 ^ height + j) = 2 ^ (height + 1) + 2 * j by ring, hback, ha]
      · rw [show 2 * (2 ^ height + j) + 1 = 2 ^ (height + 1) + (2 * j + 1) by ring, hback, hb]

/-- The loop fills the array with the rows of the tree. -/
theorem foldlM_fillTurn (e : ε) (pad : α) :
    (range (2 ^ height - 1)).foldlM (fillTurn node e (2 ^ height))
    (row ++ replicate (2 ^ height - 1) pad) =
      .ok (rows node height row) := by
  have hlength := length_rows node h
  -- after some turns the front of the array is that of the rows
  have hrun : ∀ turns ≤ 2 ^ height - 1, (range turns).foldlM (fillTurn node e (2 ^ height))
      (row ++ replicate (2 ^ height - 1) pad) =
        .ok ((rows node height row).take (2 ^ height + turns) ++
        replicate (2 ^ height - 1 - turns) pad) := by
    intro turns hturns
    induction turns with
    | zero =>
      have hfront : (rows node height row).take (2 ^ height) = row := by
        cases height with
        | zero => exact take_of_length_le h.le
        | succ height => rw [rows, take_left' h]
      rw [Nat.add_zero, hfront]
      rfl
    | succ k ih =>
      obtain ⟨a, b, ha, hb, hnode⟩ := getElem?_rows node h (show k < 2 ^ height - 1 by omega)
      have htake : ((rows node height row).take (2 ^ height + k)).length = 2 ^ height + k := by
        rw [length_take, hlength]
        omega
      have hread : ∀ {j c}, j < 2 ^ height + k → (rows node height row)[j]? = some c →
          ((rows node height row).take (2 ^ height + k) ++ replicate (2 ^ height - 1 - k) pad)[j]? =
            some c := by
        intro j c hj hc
        rw [getElem?_append_left (by omega), getElem?_take_of_lt hj, hc]
      obtain ⟨rest, hrest⟩ : ∃ rest, 2 ^ height - 1 - k = rest + 1 :=
        ⟨2 ^ height - 1 - (k + 1), by omega⟩
      have hleft : 2 ^ height - 1 - (k + 1) = rest := by omega
      rw [range_succ, foldlM_append, ih (by omega), ok_bind, foldlM_cons, fillTurn,
        index_eq_ok.2 (hread (by omega) ha), ok_bind, index_eq_ok.2 (hread (by omega) hb), ok_bind,
        store_of_lt (by rw [length_append, htake, length_replicate]; omega), ok_bind, hrest, hleft,
        replicate_succ, set_append_right _ _ (by omega), htake, Nat.sub_self, set_cons_zero,
        ← Nat.add_assoc, take_add_one, hnode, Option.toList_some, append_assoc]
      rfl
  have hwhole := hrun _ le_rfl
  rw [Nat.sub_self, replicate_zero, append_nil, take_of_length_le hlength.le] at hwhole
  exact hwhole

end

end Hcashd.Lib
