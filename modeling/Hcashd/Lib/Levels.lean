import Mathlib

/-!
# Lists kept in levels

A long list is kept in levels, each of which may hold twice as many entries as the one below it. The
lowest level has the newest entries, so the list is read from the highest level down (`concat`). A
level other than the lowest is half full or full, and no level below one that is used is empty
(`Levelled`). When the lowest levels are full, a new entry moves each of them one level up, and the
last one of them is appended to the level above, which is then full (`Levelled.carry`).
-/

namespace Hcashd.Lib.Levels

open List

universe u

variable {α : Type u} {c : ℕ} {L W : ℕ → List α}

/-- The entries of the levels below `n`, the oldest first. -/
def concat (L : ℕ → List α) : ℕ → List α
  | 0 => []
  | n + 1 => L n ++ concat L n

/-- How a level that is used is filled, where the lowest one may hold `c` entries. -/
def Filled (c : ℕ) : ℕ → List α → Prop
  | 0, xs => xs ≠ [] ∧ xs.length ≤ c
  | k + 1, xs => xs.length = c * 2^k ∨ xs.length = c * 2^(k + 1)

/-- The levels below `n` are used, and no others. -/
structure Levelled (c : ℕ) (L : ℕ → List α) (n : ℕ) : Prop where
  filled : ∀ k < n, Filled c k (L k)
  empty : ∀ k, n ≤ k → L k = []

/-- The levels hold the list `xs`. -/
def Lists (c : ℕ) (L : ℕ → List α) (xs : List α) : Prop :=
  ∃ n, Levelled c L n ∧ concat L n = xs

/-! ## Reading the levels -/

theorem concat_congr {n : ℕ} (h : ∀ k < n, L k = W k) : concat L n = concat W n := by
  induction n with
  | zero => rfl
  | succ n ih => rw [concat, concat, h n n.lt_succ_self, ih fun k hk => h k (Nat.lt_succ_of_lt hk)]

/-- The lower levels come last. -/
theorem concat_add (L : ℕ → List α) (a b : ℕ) :
    concat L (a + b) = concat (fun k => L (a + k)) b ++ concat L a := by
  induction b with
  | zero => rfl
  | succ b ih => rw [← Nat.add_assoc, concat, concat, ih, append_assoc]

/-- Levels that hold some more entries in the lowest ones, and are the same above. -/
theorem concat_append {a n : ℕ} {t : List α} (h : concat W a = concat L a ++ t)
    (habove : ∀ k, a ≤ k → W k = L k) (hle : a ≤ n) : concat W n = concat L n ++ t := by
  induction n, hle using Nat.le_induction with
  | base => exact h
  | succ n hle ih => rw [concat, concat, habove n hle, ih, append_assoc]

/-- Levels above may be compared one by one. -/
theorem concat_congr_above {a n : ℕ} (h : concat W a = concat L a) (habove : ∀ k, a ≤ k → W k = L k)
    (hle : a ≤ n) : concat W n = concat L n := by
  have happend := concat_append (t := []) (h.trans (append_nil _).symm) habove hle
  rwa [append_nil] at happend

/-- Empty levels add nothing. -/
theorem concat_of_empty {a n : ℕ} (h : ∀ k, a ≤ k → k < n → L k = []) (hle : a ≤ n) :
    concat L n = concat L a := by
  induction n, hle using Nat.le_induction with
  | base => rfl
  | succ n hle ih =>
    rw [concat, h n hle n.lt_succ_self, nil_append]
    exact ih fun k hk hkn => h k hk (Nat.lt_succ_of_lt hkn)

variable {n m : ℕ}

/-- Above the last level there is nothing. -/
theorem Levelled.concat_eq (h : Levelled c L n) (hle : n ≤ m) : concat L m = concat L n :=
  concat_of_empty (fun k hk _ => h.empty k hk) hle

variable {k : ℕ} {xs : List α}

/-- A filled level fits. -/
theorem Filled.length_le (h : Filled c k xs) : xs.length ≤ c * 2^k := by
  cases k with
  | zero => simpa using h.2
  | succ k =>
    rcases h with h | h
    · rw [h]
      exact Nat.mul_le_mul_left c (Nat.pow_le_pow_right (by decide) k.le_succ)
    · exact h.le

theorem Filled.ne_nil (hc : 0 < c) (h : Filled c k xs) : xs ≠ [] := by
  cases k with
  | zero => exact h.1
  | succ k =>
    rw [← length_pos_iff]
    have hpos : ∀ j, 0 < c * 2^j := fun j => Nat.mul_pos hc (by positivity)
    rcases h with h | h
    · exact h ▸ hpos k
    · exact h ▸ hpos (k + 1)

theorem filled_of_length_eq (hc : 0 < c) (h : xs.length = c * 2^k) : Filled c k xs := by
  cases k with
  | zero =>
    rw [Nat.pow_zero, Nat.mul_one] at h
    exact ⟨length_pos_iff.1 (h ▸ hc), h.le⟩
  | succ k => exact .inr h

theorem Levelled.le_length {n : ℕ} (h : Levelled c L (n + 1)) :
    c * 2^n + 1 ≤ (concat L (n + 1)).length + c := by
  have hlow : ∀ m ≤ n, c * 2^m + 1 ≤ (concat L (m + 1)).length + c := by
    intro m hm
    induction m with
    | zero =>
      have hpos := length_pos_iff.2 (h.filled 0 (by omega)).1
      simp only [concat, append_nil, Nat.pow_zero, Nat.mul_one]
      omega
    | succ m ih =>
      have hhalf : c * 2^m ≤ (L (m + 1)).length := by
        rcases h.filled (m + 1) (by omega) with hlen | hlen
        · exact hlen.ge
        · rw [hlen]
          exact Nat.mul_le_mul_left c (Nat.pow_le_pow_right (by decide) m.le_succ)
      have hbelow := ih (by omega)
      rw [concat, length_append, Nat.pow_succ, ← Nat.mul_assoc, Nat.mul_two]
      omega
  exact hlow n le_rfl

/-- A list of fewer than `c * 2^m` entries needs at most `m + 1` levels. -/
theorem Levelled.le_of_length_lt (h : Levelled c L n) (hlen : (concat L n).length < c * 2^m) :
    n ≤ m + 1 := by
  by_contra hlt
  obtain ⟨k, rfl⟩ : ∃ k, n = k + 1 := ⟨n - 1, by omega⟩
  have hle := h.le_length
  have hmono : c * 2^(m + 1) ≤ c * 2^k :=
    Nat.mul_le_mul_left c (Nat.pow_le_pow_right (by decide) (by omega))
  have hcap : c ≤ c * 2^m := Nat.le_mul_of_pos_right c (by positivity)
  rw [Nat.pow_succ, ← Nat.mul_assoc, Nat.mul_two] at hmono
  omega

/-- Levels whose lowest ones are filled anew. -/
theorem Levelled.splice (hfilled : ∀ k < m, Filled c k (W k)) (hsame : ∀ k, m ≤ k → W k = L k)
    (habove : ∀ k, m ≤ k → k < n → Filled c k (L k)) (hempty : ∀ k, n ≤ k → L k = [])
    (hle : m ≤ n) :
    Levelled c W n := by
  refine ⟨fun k hk => ?_, fun k hk => (hsame k (hle.trans hk)).trans (hempty k hk)⟩
  rcases Nat.lt_or_ge k m with hlt | hge
  · exact hfilled k hlt
  · exact hsame k hge ▸ habove k hge hk

theorem Levelled.nil : Levelled c (fun _ => ([] : List α)) 0 :=
  ⟨fun k hk => absurd hk k.not_lt_zero, fun _ _ => rfl⟩

theorem Lists.nil : Lists c (fun _ => ([] : List α)) [] := ⟨0, Levelled.nil, rfl⟩

/-! ## A new entry -/

/-- The levels after a new entry where those below `m + 1` were full: each of them has moved up, the
last one to the end of the level above. -/
def carry (L : ℕ → List α) (m : ℕ) (e : α) (k : ℕ) : List α :=
  if k = 0 then [e]
  else if k ≤ m then L (k - 1)
  else if k = m + 1 then L k ++ L m
  else L k

theorem concat_carry_of_le (L : ℕ → List α) (m : ℕ) (e : α) (h : k ≤ m) :
    concat (carry L m e) (k + 1) = concat L k ++ [e] := by
  induction k with
  | zero => rfl
  | succ k ih =>
    have hlevel : carry L m e (k + 1) = L k := by
      rw [carry, if_neg k.succ_ne_zero, if_pos h]
      rfl
    rw [concat, ih (by omega), hlevel, concat, append_assoc]

theorem concat_carry (L : ℕ → List α) (m : ℕ) (e : α) {n : ℕ} (h : m + 2 ≤ n) :
    concat (carry L m e) n = concat L n ++ [e] := by
  refine concat_append ?_ (fun k hk => ?_) h
  · have hlevel : carry L m e (m + 1) = L (m + 1) ++ L m := by
      rw [carry, if_neg m.succ_ne_zero, if_neg (by omega), if_pos rfl]
    rw [concat, concat_carry_of_le L m e le_rfl, hlevel, concat, concat]
    simp only [append_assoc]
  · rw [carry, if_neg (by omega), if_neg (by omega), if_neg (by omega)]

/-- A carry keeps the levels in shape. -/
theorem Levelled.carry (hc : 0 < c) (h : Levelled c L n)
    (hfull : ∀ k ≤ m, (L k).length = c * 2^k) (hnot : (L (m + 1)).length ≠ c * 2^(m + 1)) (e : α) :
    Levelled c (carry L m e) (max n (m + 2)) := by
  constructor
  · intro k hk
    rw [Levels.carry]
    split_ifs with hzero hle htop
    · subst hzero
      exact ⟨cons_ne_nil _ _, hc⟩
    · -- a full level is half of the one above it
      obtain ⟨j, rfl⟩ : ∃ j, k = j + 1 := ⟨k - 1, by omega⟩
      exact .inl (hfull j (by omega))
    · subst htop
      rw [Filled, length_append, hfull m le_rfl]
      by_cases hused : m + 1 < n
      · rcases h.filled (m + 1) hused with hhalf | hwhole
        · right
          rw [hhalf, Nat.pow_succ, ← Nat.mul_assoc, Nat.mul_two]
        · exact absurd hwhole hnot
      · left
        rw [h.empty (m + 1) (by omega), length_nil, Nat.zero_add]
    · exact h.filled k (by omega)
  · intro k hk
    rw [Levels.carry, if_neg (by omega), if_neg (by omega), if_neg (by omega)]
    exact h.empty k (by omega)

/-- A carry appends the entry. -/
theorem Lists.carry {m : ℕ} (hc : 0 < c) (h : Lists c L xs)
    (hfull : ∀ k ≤ m, (L k).length = c * 2^k) (hnot : (L (m + 1)).length ≠ c * 2^(m + 1)) (e : α) :
    Lists c (carry L m e) (xs ++ [e]) := by
  obtain ⟨n, h, rfl⟩ := h
  refine ⟨max n (m + 2), h.carry hc hfull hnot e, ?_⟩
  rw [concat_carry L m e (le_max_right _ _), h.concat_eq (le_max_left _ _)]

end Hcashd.Lib.Levels
