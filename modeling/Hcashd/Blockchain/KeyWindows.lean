import Hcashd.Blockchain.StakeVersion

/-!
# Windows of key blocks

Windows of a fixed number of key heights, one of which begins at the stake validation height, and
where they end on a branch whose key heights are true. The end of the window before is the same for
all blocks of a window, and moves on when a key block ends a window.
-/

namespace Hcashd.Blockchain.Voting

open Lib List

/-! ## Windows by number -/

/-- The number of the window of a height. -/
def windowIndex (stakeValidationHeight interval height : ℕ) : ℕ :=
  (height + (interval - stakeValidationHeight % interval)) / interval

section Windows

variable {svh w height height' : ℕ} (hw : 0 < w)
include hw

/-- Where a window ends. -/
theorem windowStart_add_eq (hle : svh % w ≤ height) :
    windowStart svh w height + w = svh % w + w * windowIndex svh w height := by
  obtain ⟨n, rfl⟩ := Nat.exists_eq_add_of_le hle
  have hmod := Nat.mod_lt svh hw
  have hdiv := Nat.div_add_mod n w
  have hindex : windowIndex svh w (svh % w + n) = n / w + 1 := by
    rw [windowIndex, show svh % w + n + (w - svh % w) = n + w by omega, Nat.add_div_right n hw]
  rw [hindex, windowStart, Nat.add_sub_cancel_left, Nat.mul_add, Nat.mul_one]
  omega

/-- The heights before the second window. -/
theorem windowIndex_lt_iff : windowIndex svh w height < svh / w + 2 ↔ height < svh + w := by
  have hmod := Nat.mod_lt svh hw
  have hdiv := Nat.div_add_mod svh w
  rw [windowIndex, Nat.div_lt_iff_lt_mul hw, Nat.add_mul, Nat.mul_comm (svh / w)]
  omega

/-- A window begins where the window before has its number of heights. -/
theorem windowStart_eq_add (hle : svh % w ≤ height) (hle' : svh % w ≤ height')
    (hnext : windowIndex svh w height' = windowIndex svh w height + 1) :
    windowStart svh w height' = windowStart svh w height + w := by
  have h := windowStart_add_eq hw hle
  have h' := windowStart_add_eq hw hle'
  rw [hnext, Nat.mul_add, Nat.mul_one] at h'
  omega

theorem windowStart_eq_of_windowIndex_eq (hle : svh % w ≤ height) (hle' : svh % w ≤ height')
    (hsame : windowIndex svh w height' = windowIndex svh w height) :
    windowStart svh w height' = windowStart svh w height := by
  have h := windowStart_add_eq hw hle
  have h' := windowStart_add_eq hw hle'
  rw [hsame] at h'
  omega

/-- The first window that is voted for begins one window after the stake validation height. -/
theorem windowStart_eq_first (hlt : height < svh + w) (hle : svh + w ≤ height')
    (hnext : windowIndex svh w height' = windowIndex svh w height + 1) :
    windowStart svh w height' = svh + w := by
  have hmodle := Nat.mod_le svh w
  have hdiv := Nat.div_add_mod svh w
  have hbefore := (windowIndex_lt_iff hw).2 hlt
  have hafter := mt (windowIndex_lt_iff hw).1 (not_lt.2 hle)
  have hindex : windowIndex svh w height' = svh / w + 2 := by omega
  have h := windowStart_add_eq hw (show svh % w ≤ height' by omega)
  rw [hindex, Nat.mul_add] at h
  omega

/-- When one height is in the window after another's. -/
theorem windowIndex_succ_eq_iff (hle : svh % w ≤ height') :
    windowIndex svh w height + 1 = windowIndex svh w height' ↔
      windowStart svh w height' ≤ height + w ∧ height < windowStart svh w height' := by
  have hmod := Nat.mod_lt svh hw
  have hstart := windowStart_add_eq hw hle
  obtain ⟨n, hn⟩ : ∃ n, windowIndex svh w height' = n + 1 := by
    refine Nat.exists_eq_add_one.2 ?_
    rw [windowIndex]
    exact Nat.div_pos (by omega) hw
  rw [hn, Nat.mul_add, Nat.mul_one] at hstart
  rw [hn, Nat.add_right_cancel_iff, windowIndex, Nat.div_eq_iff hw]
  have hcomm := Nat.mul_comm n w
  omega

theorem lt_iff_of_windowIndex_eq (hsame : windowIndex svh w height' = windowIndex svh w height) :
    height' < svh + w ↔ height < svh + w := by
  rw [← windowIndex_lt_iff hw, hsame, windowIndex_lt_iff hw]

/-- The last `w` key heights up to the end of a window are in one window. -/
theorem windowIndex_eq_of_windowStart (hle : svh % w ≤ height')
    (hstart : windowStart svh w height' = height') (hlow : height' ≤ height + w)
    (hlt : height < height') :
    windowIndex svh w height = windowIndex svh w (height' - 1) := by
  have h := (windowIndex_succ_eq_iff hw hle).2 (show _ ≤ height + w ∧ height < _ by omega)
  have h' := (windowIndex_succ_eq_iff hw hle).2
    (show _ ≤ height' - 1 + w ∧ height' - 1 < _ by omega)
  omega

/-- Windows follow each other. -/
theorem windowStart_mono (hle : svh % w ≤ height) (hmono : height ≤ height') :
    windowStart svh w height ≤ windowStart svh w height' := by
  have h := windowStart_add_eq hw hle
  have h' := windowStart_add_eq hw (hle.trans hmono)
  have hindex : windowIndex svh w height ≤ windowIndex svh w height' :=
    Nat.div_le_div_right (Nat.add_le_add_right hmono _)
  have := Nat.mul_le_mul_left w hindex
  omega

end Windows

/-! ## Key blocks by their key heights -/

variable {env : Env} {index : Hash → Option Branch} {node anc : Branch}

/-- The key height, counted from one, of the next key block after a node. -/
def nextHeight (env : Env) (node : Branch) : ℕ := (keys env node).length + 1

variable {b : MsgBlock} {below : Branch}

section

variable (h : KeyChained env index node)

include h

/-- The height that follows the last key block. -/
theorem KeyChained.nextHeight_eq
    (hlast : lastKey env node = b :: below) : nextHeight env node = b.header.keyHeight + 2 := by
  have hb : KeyChained env index (b :: below) := hlast ▸ h.of_suffix (lastKey_suffix node)
  rw [nextHeight, ← keys_lastKey, hlast,
    hb.length_keys (keyHead_cons.1 (hlast ▸ keyHead_lastKey node))]

omit h in
/-- An ancestor has no more key blocks. -/
theorem length_keys_le_of_suffix (hs : anc <:+ node) :
    (keys env anc).length ≤ (keys env node).length :=
  (hs.sublist.filter _).length_le

/-- Key heights count the key blocks. -/
theorem KeyChained.keyHeight_lt (hb : b ∈ keys env node) :
    b.header.keyHeight < (keys env node).length := by
  induction node with
  | nil => simp at hb
  | cons a below ih =>
    have hbelow : KeyChained env index below := h.of_suffix (suffix_cons a below)
    cases hkey : isKey env a with
    | false =>
      rw [keys_cons_of_micro hkey] at hb ⊢
      exact ih hbelow hb
    | true =>
      rw [keys_cons_of_key hkey] at hb ⊢
      rw [length_cons]
      obtain rfl | hb := mem_cons.1 hb
      · have := h.keyHeight b below (suffix_refl _)
        omega
      · have := ih hbelow hb
        omega

/-- The key blocks up to a key height, as a filter. -/
theorem KeyChained.keys_atKeyHeight_eq (keyHeight : ℤ) :
    keys env (atKeyHeight env keyHeight node) =
      (keys env node).filter fun b => decide ((b.header.keyHeight : ℤ) ≤ keyHeight) := by
  induction node with
  | nil => simp [atKeyHeight]
  | cons b below ih =>
    have hbelow : KeyChained env index below := h.of_suffix (suffix_cons b below)
    cases hkey : isKey env b with
    | false => rw [atKeyHeight_cons_of_not (.inl hkey), ih hbelow, keys_cons_of_micro hkey]
    | true =>
      by_cases hle : (b.header.keyHeight : ℤ) ≤ keyHeight
      · -- All key blocks below have smaller key heights.
        rw [atKeyHeight_cons_of_le hkey hle, eq_comm, filter_eq_self]
        intro a ha
        have hlt := h.keyHeight_lt ha
        rw [h.length_keys hkey] at hlt
        simp only [decide_eq_true_eq]
        omega
      · rw [atKeyHeight_cons_of_not (.inr (not_le.1 hle)), ih hbelow, keys_cons_of_key hkey,
          filter_cons_of_neg (by simpa using hle)]

/-- The last key blocks, by their key heights. -/
theorem KeyChained.take_keys_eq (n : ℕ) : (keys env node).take n =
      (keys env node).filter fun b => decide ((keys env node).length ≤ b.header.keyHeight + n) := by
  induction node generalizing n with
  | nil => simp
  | cons b below ih =>
    have hbelow : KeyChained env index below := h.of_suffix (suffix_cons b below)
    cases hkey : isKey env b with
    | false => rw [keys_cons_of_micro hkey, ih hbelow]
    | true =>
      cases n with
      | zero =>
        rw [take_zero, eq_comm, filter_eq_nil_iff]
        intro a ha
        have := h.keyHeight_lt ha
        simp only [decide_eq_true_eq]
        omega
      | succ n =>
        have hb := h.keyHeight b below (suffix_refl _)
        rw [keys_cons_of_key hkey, take_succ_cons, ih hbelow,
          filter_cons_of_pos (by simp only [length_cons, decide_eq_true_eq]; omega)]
        congr 2
        funext a
        rw [length_cons]
        congr 1
        exact propext (by omega)

/-- Later blocks do not change the ancestor at a key height. -/
theorem KeyChained.atKeyHeight_of_suffix (hs : anc <:+ node) {keyHeight : ℤ}
    (hlt : keyHeight < (keys env anc).length) :
    atKeyHeight env keyHeight node = atKeyHeight env keyHeight anc := by
  refine suffix_induction hs rfl fun b below hb hs ih => ?_
  have hbelow := h.keyHeight b below hb
  have hle : (keys env anc).length ≤ (keys env below).length := length_keys_le_of_suffix hs
  rw [atKeyHeight_cons_of_not (.inr (by omega)), ih]

omit h in
/-- Going down in two steps. -/
theorem atKeyHeight_atKeyHeight {keyHeight keyHeight' : ℤ} (hle : keyHeight' ≤ keyHeight)
    (node : Branch) :
    atKeyHeight env keyHeight' (atKeyHeight env keyHeight node) =
      atKeyHeight env keyHeight' node := by
  induction node with
  | nil => rfl
  | cons b below ih =>
    by_cases hgo : isKey env b = false ∨ keyHeight < b.header.keyHeight
    · rw [atKeyHeight_cons_of_not hgo, ih, atKeyHeight_cons_of_not (hgo.imp_right hle.trans_lt)]
    · obtain ⟨hkey, hlt⟩ := not_or.1 hgo
      rw [atKeyHeight_cons_of_le (by simpa using hkey) (not_lt.1 hlt)]

/-- The last key block before a window. -/
theorem KeyChained.windowEnd_eq (htwo : 2 ≤ env.params.stakeValidationHeight)
    (w : ℕ) : windowEnd env w node = if nextHeight env node <
      env.params.stakeValidationHeight + w then []
      else atKeyHeight env
        ((windowStart env.params.stakeValidationHeight w (nextHeight env node) : ℤ) - 2) node := by
  cases hlast : lastKey env node with
  | nil =>
    have hnone : nextHeight env node = 1 := by rw [nextHeight, ← keys_lastKey, hlast]; rfl
    rw [if_pos (by omega), windowEnd, hlast]
  | cons b below =>
    rw [h.nextHeight_eq hlast]
    split_ifs with hlt
    · exact windowEnd_of_lt hlast hlt
    · rw [windowEnd_of_le hlast (not_lt.1 hlt), ← hlast, atKeyHeight_lastKey]

end

variable {w : ℕ}

/-- Blocks of one window share the end of the window before. -/
theorem KeyChained.windowEnd_eq_of_windowIndex_eq (h : KeyChained env index node)
    (htwo : 2 ≤ env.params.stakeValidationHeight) (hw : 0 < w) (hs : anc <:+ node)
    (hsame : windowIndex env.params.stakeValidationHeight w (nextHeight env anc) =
      windowIndex env.params.stakeValidationHeight w (nextHeight env node)) :
    windowEnd env w anc = windowEnd env w node := by
  have hmodle := Nat.mod_le env.params.stakeValidationHeight w
  have hiff := lt_iff_of_windowIndex_eq hw hsame
  rw [(h.of_suffix hs).windowEnd_eq htwo, h.windowEnd_eq htwo]
  by_cases hlt : nextHeight env anc < env.params.stakeValidationHeight + w
  · rw [if_pos hlt, if_pos (hiff.1 hlt)]
  · have hlt' := mt hiff.2 hlt
    have hstart := windowStart_eq_of_windowIndex_eq hw (by omega) (by omega) hsame
    have hle := windowStart_le env.params.stakeValidationHeight w (nextHeight env anc)
    have hlen : nextHeight env anc = (keys env anc).length + 1 := rfl
    rw [if_neg hlt, if_neg hlt', ← hstart, h.atKeyHeight_of_suffix hs (by omega)]

/-- A key block stays in the window or starts the next. -/
theorem windowIndex_succ (svh height : ℕ) (hw : 0 < w) :
    windowIndex svh w (height + 1) = windowIndex svh w height ∨
      (svh % w ≤ height + 1 → windowStart svh w (height + 1) = height + 1) := by
  rw [or_iff_not_imp_left]
  intro hne hle
  have hmod := Nat.mod_lt svh hw
  have hstart := windowStart_add_eq hw hle
  have hdvd : w ∣ height + 1 + (w - svh % w) := by
    by_contra hdvd
    refine hne ?_
    rw [windowIndex, windowIndex, show height + 1 + (w - svh % w) =
      height + (w - svh % w) + 1 by omega,
      Nat.succ_div,
      if_neg (by rwa [show height + (w - svh % w) + 1 = height + 1 + (w - svh % w) by omega]),
      Nat.add_zero]
  rw [windowIndex, Nat.mul_div_cancel' hdvd] at hstart
  omega

/-- With the next block the window before ends where it did, or at the block itself. -/
theorem KeyChained.windowEnd_cons (h : KeyChained env index (b :: below))
    (htwo : 2 ≤ env.params.stakeValidationHeight) (hw : 0 < w) :
    windowEnd env w (b :: below) = windowEnd env w below ∨
      windowEnd env w (b :: below) = b :: below ∧ isKey env b = true := by
  have hs : below <:+ b :: below := suffix_cons b below
  cases hkey : isKey env b with
  | false =>
    rw [windowEnd, lastKey_cons_of_micro hkey]
    exact .inl rfl
  | true =>
    have hb := h.keyHeight b below (suffix_refl _)
    have hnext : nextHeight env (b :: below) = nextHeight env below + 1 := by
      rw [nextHeight, nextHeight, keys_cons_of_key hkey, length_cons]
    obtain hsame | hstart :=
      windowIndex_succ env.params.stakeValidationHeight (nextHeight env below) hw
    · rw [← hnext] at hsame
      exact .inl (h.windowEnd_eq_of_windowIndex_eq htwo hw hs hsame.symm).symm
    · have hmodle := Nat.mod_le env.params.stakeValidationHeight w
      rw [← hnext] at hstart
      rw [h.windowEnd_eq htwo]
      split_ifs with hlt
      · rw [(h.of_suffix hs).windowEnd_eq htwo, if_pos (by omega)]
        exact .inl rfl
      · rw [hstart (by omega), atKeyHeight_cons_of_le hkey (by rw [hnext, nextHeight]; omega)]
        exact .inr ⟨rfl, rfl⟩

/-- A block that ends a window is the last one of its key heights. -/
theorem KeyChained.windowStart_of_windowEnd
    (h : KeyChained env index (b :: below)) (htwo : 2 ≤ env.params.stakeValidationHeight)
    (hend : windowEnd env w (b :: below) = b :: below) :
    isKey env b = true ∧ env.params.stakeValidationHeight + w ≤ b.header.keyHeight + 2 ∧
      windowStart env.params.stakeValidationHeight w (b.header.keyHeight + 2) =
        b.header.keyHeight + 2 := by
  have hkey : isKey env b = true := keyHead_cons.1 (hend ▸ keyHead_windowEnd w (b :: below))
  have hnext := h.nextHeight_eq (lastKey_cons_of_key hkey)
  have hlt := hend
  rw [h.windowEnd_eq htwo, hnext] at hlt
  split_ifs at hlt with hearly
  refine ⟨hkey, not_lt.1 hearly, le_antisymm (windowStart_le _ _ _) ?_⟩
  -- Otherwise the walk back to the end of the window would have left the block.
  by_contra hstart
  rw [atKeyHeight_cons_of_not (.inr (by omega))] at hlt
  have hlen := congrArg length hlt ▸ (atKeyHeight_suffix _ below).length_le
  rw [length_cons] at hlen
  omega

end Hcashd.Blockchain.Voting
