import Hcashd.Errors
import Hcashd.Lib.Levels
import Hcashd.Lib.Result

/-!
# The levels of an address

`blockchain/indexers/addrindex.go` keeps the entries of one address in levels, at the keys made of
the address and the number of the level. `dbPutAddrIndexEntry` appends an entry and
`dbRemoveAddrIndexEntries` removes the newest ones; what is left of the level that was cut into is
squashed into the lowest levels that take it, and the levels above are halved downwards to close the
gap. Whatever the number of entries, the levels implement a list with these two operations
(`dbPutAddrIndexEntry_spec`, `dbRemoveAddrIndexEntries_spec`).

An entry has twelve bytes in the source; here a level is the list of its entries, which is empty
where the bucket has no key. Levels are numbered by a `uint8` and are never more than a few dozen.
-/

namespace Hcashd.Indexers

open Lib Lib.Levels Function

open List hiding concat

variable {α : Type}

/-- The entries of an address by levels. -/
abbrev AddrLevels (α : Type) := ℕ → List α

/-- How many entries the first level holds. -/
def level0MaxEntries : ℕ := 8

/-- The number of levels that a `uint8` can tell from the lowest. -/
def numLevels : ℕ := 255

/-! ## Putting an entry -/

/-- The loop of `dbPutAddrIndexEntry` that moves the levels below a number up by one. -/
def moveUp (levels : AddrLevels α) : ℕ → AddrLevels α
  | 0 => levels
  | mergeLevel + 1 => moveUp (update levels (mergeLevel + 1) (levels mergeLevel)) mergeLevel

/-- The loop of `dbPutAddrIndexEntry` that looks for a level that is not full. -/
def mergeLevels (levels : AddrLevels α) : ℕ → ℕ → ℕ → List α → Except Err (AddrLevels α)
  | 0, _, _, _ => .error .outOfFuel
  | fuel + 1, curLevel, maxLevelEntries, prevLevelData =>
    let curLevelData := levels (curLevel + 1)
    if curLevelData.length = maxLevelEntries * 2 then
      mergeLevels levels fuel (curLevel + 1) (maxLevelEntries * 2) curLevelData
    else .ok (moveUp (update levels (curLevel + 1) (curLevelData ++ prevLevelData)) curLevel)

/-- `dbPutAddrIndexEntry`: appends an entry and merges levels that are full. -/
def dbPutAddrIndexEntry (levels : AddrLevels α) (newData : α) : Except Err (AddrLevels α) :=
  if (levels 0).length + 1 ≤ level0MaxEntries then
    .ok (update levels 0 (levels 0 ++ [newData]))
  else do
    let levels ← mergeLevels levels numLevels 0 level0MaxEntries (levels 0)
    pure (update levels 0 [newData])

/-! ## Removing entries -/

/-- `minEntriesToReachLevel`: how many entries make a level used. -/
def minEntriesToReachLevel (level : ℕ) : ℕ :=
  1 + ((range level).map fun l => level0MaxEntries * 2^l).sum

/-- `maxEntriesForLevel`: each level holds twice as many as that before. -/
def maxEntriesForLevel (level : ℕ) : ℕ := level0MaxEntries * 2^level

/-- The loop of `dbRemoveAddrIndexEntries` that empties levels and cuts into the last of them, with
that level. The pending updates are made in place: the source reads no level of the bucket again
that it has changed. -/
def removeNewest (levels : AddrLevels α) : ℕ → ℕ → ℕ → Except Err (AddrLevels α × ℕ)
  | 0, _, _ => .error .outOfFuel
  | fuel + 1, level, numRemaining =>
    let curLevelData := levels level
    if curLevelData.length = 0 then .error .assertion
    else if curLevelData.length ≤ numRemaining then
      let levels := update levels level []
      if numRemaining - curLevelData.length = 0 then .ok (levels, level)
      else removeNewest levels fuel (level + 1) (numRemaining - curLevelData.length)
    else .ok (update levels level (curLevelData.take (curLevelData.length - numRemaining)), level)

/-- The loop of `dbRemoveAddrIndexEntries` that squashes what is left of a level into the lowest
levels, with the lowest level that stays empty. -/
def squash : ℕ → List α → ℕ → ℕ → AddrLevels α → AddrLevels α × ℕ
  | 0, curLevelData, _, lowestEmptyLevel, levels =>
    (update levels 0 curLevelData, if curLevelData.length = 0 then 0 else lowestEmptyLevel)
  | level + 1, curLevelData, curLevelMaxEntries, lowestEmptyLevel, levels =>
    let numEntries := curLevelData.length
    let prevLevelMaxEntries := curLevelMaxEntries / 2
    let minPrevRequired := minEntriesToReachLevel level
    if numEntries < prevLevelMaxEntries + minPrevRequired then
      squash level curLevelData prevLevelMaxEntries (level + 1) (update levels (level + 1) [])
    else
      let offset :=
        if (numEntries : ℤ) - curLevelMaxEntries ≥ minPrevRequired then curLevelMaxEntries
        else prevLevelMaxEntries
      squash level (curLevelData.drop offset) prevLevelMaxEntries lowestEmptyLevel
        (update levels (level + 1) (curLevelData.take offset))

/-- The inner loop of `dbRemoveAddrIndexEntries` that halves a level down to the lowest empty
one. -/
def halveDown (lowestEmptyLevel : ℕ) : ℕ → List α → ℕ → AddrLevels α → AddrLevels α
  | 0, _, _, levels => levels
  | level + 1, levelData, curLevelMaxEntries, levels =>
    if lowestEmptyLevel < level + 1 then
      let offset := curLevelMaxEntries / 2
      halveDown lowestEmptyLevel level (levelData.drop offset) (curLevelMaxEntries / 2)
        (update (update levels (level + 1) (levelData.take offset)) level (levelData.drop offset))
    else levels

/-- The loop of `dbRemoveAddrIndexEntries` that fills the empty levels from the next ones. -/
def backfill : ℕ → ℕ → ℕ → AddrLevels α → Except Err (AddrLevels α)
  | 0, _, _, _ => .error .outOfFuel
  | fuel + 1, highestLoadedLevel, lowestEmptyLevel, levels =>
    if (levels highestLoadedLevel).length ≠ 0 then .ok levels
    else
      let level := highestLoadedLevel + 1
      let levelData := levels level
      if levelData.length = 0 then .ok levels
      else
        let curLevelMaxEntries := maxEntriesForLevel level
        -- a level that is half full is the level below it, full
        let levels := if levelData.length ≠ curLevelMaxEntries then
            halveDown lowestEmptyLevel (level - 1) levelData (curLevelMaxEntries / 2)
              (update (update levels level []) (level - 1) levelData)
          else halveDown lowestEmptyLevel level levelData curLevelMaxEntries levels
        backfill fuel level level levels

/-- `dbRemoveAddrIndexEntries`: takes the newest entries off. -/
def dbRemoveAddrIndexEntries (levels : AddrLevels α) (count : ℕ) : Except Err (AddrLevels α) :=
  if count = 0 then .ok levels
  else do
    let removed ← removeNewest levels numLevels 0 count
    if (removed.1 0).length ≠ 0 then .ok removed.1
    else
      let squashed :=
        squash removed.2 (removed.1 removed.2) (maxEntriesForLevel removed.2) numLevels removed.1
      backfill numLevels removed.2 squashed.2 squashed.1

/-! ## A put appends -/

section Put

variable {levels : AddrLevels α} {xs : List α}

theorem moveUp_apply (levels : AddrLevels α) (m k : ℕ) :
    moveUp levels m k = if 1 ≤ k ∧ k ≤ m then levels (k - 1) else levels k := by
  induction m generalizing levels with
  | zero => rw [moveUp, if_neg (by omega)]
  | succ m ih =>
    rw [moveUp, ih, update_apply, update_apply]
    grind

/-- Where the carry of a new entry stops. -/
theorem mergeLevels_eq {n : ℕ} (h : Levelled level0MaxEntries levels n) (e : α) :
    ∀ fuel m, n < m + fuel + 1 → (∀ k ≤ m, (levels k).length = level0MaxEntries * 2^k) →
      ∃ m', (∀ k ≤ m', (levels k).length = level0MaxEntries * 2^k) ∧
        (levels (m' + 1)).length ≠ level0MaxEntries * 2^(m' + 1) ∧
        ∃ merged, mergeLevels levels fuel m (level0MaxEntries * 2^m) (levels m) = .ok merged ∧
          update merged 0 [e] = carry levels m' e := by
  intro fuel
  induction fuel with
  | zero =>
    -- a full level is used
    intro m hfuel hfull
    have hempty := h.empty m (by omega)
    have hlen := hfull m le_rfl
    have hpos : 0 < level0MaxEntries * 2^m := Nat.mul_pos (by decide) (by positivity)
    rw [hempty, length_nil] at hlen
    omega
  | succ fuel ih =>
    intro m hfuel hfull
    have hdouble : level0MaxEntries * 2^m * 2 = level0MaxEntries * 2^(m + 1) := by
      rw [Nat.pow_succ, Nat.mul_assoc]
    rw [mergeLevels, hdouble]
    by_cases hnext : (levels (m + 1)).length = level0MaxEntries * 2^(m + 1)
    · simp only [hnext, if_true]
      refine ih (m + 1) (by omega) fun k hk => ?_
      rcases Nat.lt_or_ge k (m + 1) with hlt | hge
      · exact hfull k (by omega)
      · rw [show k = m + 1 by omega, hnext]
    · simp only [hnext, if_false]
      refine ⟨m, hfull, hnext, _, rfl, funext fun k => ?_⟩
      rw [carry, update_apply, moveUp_apply, update_apply, update_apply]
      grind

/-- `dbPutAddrIndexEntry` appends the entry. -/
theorem dbPutAddrIndexEntry_spec (h : Lists level0MaxEntries levels xs)
    (hlen : xs.length < 2^64) (e : α) :
    ∃ levels', dbPutAddrIndexEntry levels e = .ok levels' ∧
    Lists level0MaxEntries levels' (xs ++ [e]) := by
  unfold dbPutAddrIndexEntry
  split_ifs with hroom
  · -- there is room in the lowest level
    obtain ⟨n, h, rfl⟩ := h
    have habove : ∀ k, 1 ≤ k → update levels 0 (levels 0 ++ [e]) k = levels k := fun k hk =>
      update_of_ne (by omega) _ _
    refine ⟨_, rfl, max n 1,
      .splice (m := 1) (fun k hk => ?_) habove (fun k hk _ => h.filled k (by omega))
      (fun k hk => h.empty k (by omega)) (le_max_right n 1), ?_⟩
    · rw [Nat.lt_one_iff.1 hk, update_self]
      refine ⟨append_ne_nil_of_right_ne_nil _ (cons_ne_nil _ _), ?_⟩
      rwa [length_append]
    · have hlow : concat (update levels 0 (levels 0 ++ [e])) 1 = concat levels 1 ++ [e] := by
        simp [concat]
      rw [concat_append hlow habove (le_max_right n 1), h.concat_eq (le_max_left n 1)]
  · have hlists := h
    obtain ⟨n, h, rfl⟩ := h
    have hlevels : n ≤ 65 := h.le_of_length_lt (lt_of_lt_of_le hlen (by decide))
    have hused : 0 < n := by
      by_contra hzero
      rw [h.empty 0 (by omega), length_nil] at hroom
      exact hroom (by decide)
    have hfull : (levels 0).length = level0MaxEntries * 2^0 := by
      have hle := (h.filled 0 hused).2
      omega
    obtain ⟨m, hfulls, hnot, merged, hok, hcarry⟩ := mergeLevels_eq h e numLevels 0
      (by unfold numLevels; omega) (fun k hk => by rw [Nat.le_zero.1 hk, hfull])
    have hzero : level0MaxEntries * 2^0 = level0MaxEntries := rfl
    rw [hzero] at hok
    refine ⟨_, by rw [hok]; rfl, ?_⟩
    rw [hcarry]
    exact hlists.carry (by decide) hfulls hnot e

end Put

/-! ## A removal cuts off the newest entries -/

section Remove

variable {levels : AddrLevels α} {xs : List α} {n : ℕ}

theorem maxEntriesForLevel_succ (level : ℕ) :
    maxEntriesForLevel (level + 1) = 2 * maxEntriesForLevel level := by
  unfold maxEntriesForLevel
  ring

theorem minEntriesToReachLevel_eq (level : ℕ) :
    minEntriesToReachLevel level + level0MaxEntries = level0MaxEntries * 2^level + 1 := by
  unfold minEntriesToReachLevel
  induction level with
  | zero => rfl
  | succ level ih =>
    rw [range_succ, map_append, sum_append, map_singleton, sum_singleton,
      Nat.pow_succ, ← Nat.mul_assoc, Nat.mul_two]
    omega

/-- The levels of which those below `j` are emptied and `j` has lost its `r` newest entries. -/
def cutAt (levels : AddrLevels α) (j r : ℕ) : AddrLevels α := fun k =>
  if k < j then [] else if k = j then (levels j).take ((levels j).length - r) else levels k

/-- Where the cut of the newest entries falls. -/
theorem removeNewest_eq (h : Levelled level0MaxEntries levels n) :
    ∀ fuel j r, n ≤ j + fuel → 0 < r →
    (concat levels j).length + r ≤ (concat levels n).length → j ≤ n →
      ∃ j' r', j' < n ∧ 0 < r' ∧ r' ≤ (levels j').length ∧
        (concat levels j').length + r' = (concat levels j).length + r ∧
        removeNewest (fun k => if k < j then [] else levels k) fuel j r =
          .ok (cutAt levels j' r', j') := by
  intro fuel
  induction fuel with
  | zero =>
    intro j r hfuel hpos hle hjn
    rw [show j = n by omega] at hle
    omega
  | succ fuel ih =>
    intro j r hfuel hpos hle hjn
    have hlt : j < n := by
      by_contra hge
      rw [show j = n by omega] at hle
      omega
    have hne : (levels j).length ≠ 0 := by
      have hfilled := (h.filled j hlt).ne_nil (by decide)
      exact fun hzero => hfilled (length_eq_zero_iff.1 hzero)
    -- the level has not been touched before, and is emptied when all of it goes
    have hcur : (if j < j then [] else levels j) = levels j := if_neg (lt_irrefl j)
    have hcleared : update (fun k => if k < j then [] else levels k) j ([] : List α) =
        fun k => if k < j + 1 then [] else levels k := by
      funext k
      rw [update_apply]
      split_ifs <;> first | rfl | omega
    have hcut : ∀ r', update (fun k => if k < j then [] else levels k) j
        ((levels j).take ((levels j).length - r')) = cutAt levels j r' := by
      intro r'
      funext k
      rw [update_apply, cutAt]
      split_ifs <;> first | rfl | omega
    unfold removeNewest
    simp only [hcur, hne, if_false]
    by_cases hall : (levels j).length ≤ r
    · rw [if_pos hall]
      by_cases hdone : r - (levels j).length = 0
      · rw [if_pos hdone]
        refine ⟨j, r, hlt, hpos, by omega, rfl, ?_⟩
        rw [← hcut r, show (levels j).length - r = 0 by omega, take_zero]
      · rw [if_neg hdone, hcleared]
        have hstep :
            (concat levels (j + 1)).length = (levels j).length + (concat levels j).length := by
          rw [concat, length_append]
        obtain ⟨j', r', hlt', hpos', hle', hsum, hok⟩ :=
          ih (j + 1) (r - (levels j).length) (by omega)
          (by omega) (by omega) (by omega)
        exact ⟨j', r', hlt', hpos', hle', by omega, hok⟩
    · rw [if_neg hall, hcut r]
      exact ⟨j, r, hlt, hpos, by omega, rfl, rfl⟩

/-- What is left below the cut. -/
theorem concat_cutAt {j r : ℕ} (hlt : j < n) (hr : r ≤ (levels j).length) :
    concat (cutAt levels j r) n =
      (concat levels n).take ((concat levels n).length - ((concat levels j).length + r)) := by
  obtain ⟨m, rfl⟩ : ∃ m, n = (j + 1) + m := ⟨n - (j + 1), by omega⟩
  have habove : (fun k => cutAt levels j r (j + 1 + k)) = fun k => levels (j + 1 + k) := by
    funext k
    rw [cutAt, if_neg (by omega), if_neg (by omega)]
  have hbelow : concat (cutAt levels j r) j = [] := by
    have hempty : ∀ k, 0 ≤ k → k < j → cutAt levels j r k = [] := fun k _ hk => if_pos hk
    rw [concat_of_empty hempty (Nat.zero_le j)]
    rfl
  have hcut : concat (cutAt levels j r) (j + 1) = (levels j).take ((levels j).length - r) := by
    rw [concat, hbelow, append_nil, cutAt, if_neg (lt_irrefl j), if_pos rfl]
  have hlevel : concat levels (j + 1) = levels j ++ concat levels j := rfl
  rw [concat_add, concat_add levels, habove, hcut, hlevel, length_append, length_append,
    show ∀ a b d : ℕ, r ≤ b → a + (b + d) - (d + r) = a + (b - r) by omega, take_length_add_append,
    take_append_of_le_length (Nat.sub_le _ _)]
  exact hr

/-- Squashing puts the rest of a level into the levels below. -/
theorem squash_spec (levels : AddrLevels α) (j : ℕ) (data : List α) (lowest : ℕ)
    (hle : data.length + level0MaxEntries ≤ level0MaxEntries * 2^(j + 1)) :
    ∃ t W, squash j data (maxEntriesForLevel j) lowest levels =
      (W, if t = j + 1 then lowest else t) ∧ t ≤ j + 1 ∧
      (minEntriesToReachLevel j ≤ data.length → t = j + 1) ∧
      (∀ k < t, Filled level0MaxEntries k (W k)) ∧
      (∀ k, t ≤ k → k ≤ j → W k = []) ∧ concat W (j + 1) = data ∧ ∀ k, j < k → W k = levels k := by
  induction j generalizing data lowest levels with
  | zero =>
    have hconcat : concat (update levels 0 data) 1 = data := by
      rw [concat, concat, update_self, append_nil]
    have habove : ∀ k, 0 < k → update levels 0 data k = levels k := fun k hk =>
      update_of_ne hk.ne' _ _
    rw [Nat.zero_add, Nat.pow_one, Nat.mul_two] at hle
    rw [squash]
    by_cases hdata : data.length = 0
    · refine ⟨0, _, by rw [if_pos hdata]; rfl, by omega, fun hreach => ?_, fun k hk =>
        absurd hk k.not_lt_zero, fun k _ hk => ?_, hconcat, habove⟩
      · rw [hdata, minEntriesToReachLevel] at hreach
        omega
      · rw [Nat.le_zero.1 hk, update_self, length_eq_zero_iff.1 hdata]
    · refine ⟨1, _, by rw [if_neg hdata]; rfl, le_rfl, fun _ => rfl, fun k hk =>
        ?_, fun k hk hk' => by omega, hconcat, habove⟩
      rw [Nat.lt_one_iff.1 hk, update_self]
      exact ⟨fun hnil => hdata (by rw [hnil, length_nil]), by omega⟩
  | succ j ih =>
    have hmin := minEntriesToReachLevel_eq j
    have hmin' := minEntriesToReachLevel_eq (j + 1)
    have hmax := maxEntriesForLevel_succ j
    have hmax' : level0MaxEntries * 2^j = maxEntriesForLevel j := rfl
    have hhalf : maxEntriesForLevel (j + 1) / 2 = maxEntriesForLevel j := by omega
    rw [Nat.pow_succ, ← Nat.mul_assoc] at hmin'
    rw [Nat.pow_succ, ← Nat.mul_assoc, Nat.pow_succ, ← Nat.mul_assoc] at hle
    simp only [squash, hhalf]
    by_cases hfew : data.length < maxEntriesForLevel j + minEntriesToReachLevel j
    · -- too few to use this level: all of it goes to the lower ones
      simp only [hfew, if_true]
      obtain ⟨t, W, hsquash, ht, -, hfilled, hempty, hconcat, habove⟩ := ih
        (update levels (j + 1) []) data (j + 1) (by
          rw [Nat.pow_succ, ← Nat.mul_assoc]
          omega)
      refine ⟨t, W, ?_, by omega, fun hreach => by omega, hfilled, fun k hk hk' =>
        ?_, ?_, fun k hk => ?_⟩
      · rw [hsquash, if_neg (show t ≠ j + 1 + 1 by omega)]
        split_ifs with htop
        · rw [htop]
        · rfl
      · rcases Nat.lt_or_ge j k with hjk | hkj
        · rw [habove k hjk, show k = j + 1 by omega, update_self]
        · exact hempty k hk hkj
      · rw [concat, hconcat, habove (j + 1) j.lt_succ_self, update_self, nil_append]
      · rw [habove k (by omega), update_of_ne (by omega)]
    · -- the level is filled as far as leaves enough entries to reach it
      simp only [hfew, if_false]
      have hchoice : ∃ offset, offset ≤ data.length ∧
          (if (data.length : ℤ) - maxEntriesForLevel (j + 1) ≥ minEntriesToReachLevel j then
            maxEntriesForLevel (j + 1) else maxEntriesForLevel j) = offset ∧
          (offset = maxEntriesForLevel j ∨ offset = maxEntriesForLevel (j + 1)) ∧
          minEntriesToReachLevel j ≤ data.length - offset ∧
          data.length - offset + level0MaxEntries ≤ maxEntriesForLevel j * 2 := by
        split_ifs with hmany
        · exact ⟨_, by omega, rfl, .inr rfl, by omega, by omega⟩
        · exact ⟨_, by omega, rfl, .inl rfl, by omega, by omega⟩
      obtain ⟨offset, hoffset, hif, hsize, hreach, hrest⟩ := hchoice
      rw [hif]
      obtain ⟨t, W, hsquash, -, hall, hfilled, -, hconcat, habove⟩ := ih
        (update levels (j + 1) (data.take offset)) (data.drop offset) lowest (by
          rw [Nat.pow_succ, ← Nat.mul_assoc, length_drop]
          exact hrest)
      obtain rfl := hall (by rw [length_drop]; exact hreach)
      have hlevel := (habove (j + 1) j.lt_succ_self).trans (update_self _ _ _)
      refine ⟨j + 1 + 1, W, by rw [hsquash, if_pos rfl, if_pos rfl], le_rfl, fun _ =>
        rfl, fun k hk => ?_, fun k hk hk' => by omega, ?_, fun k hk => ?_⟩
      · rcases Nat.lt_or_ge k (j + 1) with hkj | hjk
        · exact hfilled k hkj
        · rw [show k = j + 1 by omega, hlevel]
          have hlen : (data.take offset).length = offset := by rw [length_take, min_eq_left hoffset]
          rw [Filled, hlen]
          exact hsize
      · rw [concat, hconcat, hlevel, take_append_drop]
      · rw [habove k (by omega), update_of_ne (by omega)]

/-- A level that is full is halved downwards: the lowest of the levels it goes to is full, and each
of the others is half full. -/
theorem halveDown_spec (lowest m : ℕ) (data : List α) (levels : AddrLevels α) (hle : lowest ≤ m)
    (hdata : levels m = data) (hlen : data.length = maxEntriesForLevel m) :
    (∀ k, lowest ≤ k → k ≤ m →
      Filled level0MaxEntries k (halveDown lowest m data (maxEntriesForLevel m) levels k)) ∧
    concat (halveDown lowest m data (maxEntriesForLevel m) levels) (m + 1) =
      data ++ concat levels lowest ∧
    ∀ k, (k < lowest ∨ m < k) → halveDown lowest m data (maxEntriesForLevel m) levels k =
      levels k := by
  induction m generalizing data levels with
  | zero =>
    obtain rfl := Nat.le_zero.1 hle
    refine ⟨fun k _ hk => ?_, ?_, fun k _ => rfl⟩
    · rw [Nat.le_zero.1 hk, halveDown, hdata]
      exact filled_of_length_eq (by decide) hlen
    · simp only [halveDown, concat, hdata]
  | succ m ih =>
    have hmax := maxEntriesForLevel_succ m
    have hhalf : maxEntriesForLevel (m + 1) / 2 = maxEntriesForLevel m := by omega
    rw [halveDown, hhalf]
    by_cases hlow : lowest < m + 1
    · rw [if_pos hlow]
      have htake : (data.take (maxEntriesForLevel m)).length = maxEntriesForLevel m := by
        rw [length_take]
        omega
      obtain ⟨hfilled, hconcat, hother⟩ := ih (data.drop (maxEntriesForLevel m))
        (update (update levels (m + 1) (data.take (maxEntriesForLevel m))) m
          (data.drop (maxEntriesForLevel m))) (by omega) (update_self _ _ _) (by
          rw [length_drop]
          omega)
      have hlevel := hother (m + 1) (.inr m.lt_succ_self)
      rw [update_of_ne (by omega), update_self] at hlevel
      refine ⟨fun k hk hkm => ?_, ?_, fun k hk => ?_⟩
      · rcases Nat.lt_or_ge k (m + 1) with hlt | hge
        · exact hfilled k hk (by omega)
        · rw [show k = m + 1 by omega, hlevel]
          exact .inl htake
      · have hbelow : concat (update (update levels (m + 1)
            (data.take (maxEntriesForLevel m))) m (data.drop (maxEntriesForLevel m))) lowest =
            concat levels lowest := by
          refine concat_congr fun k hk => ?_
          rw [update_of_ne (by omega), update_of_ne (by omega)]
        rw [concat, hconcat, hlevel, hbelow, ← append_assoc, take_append_drop]
      · rw [hother k (by omega), update_of_ne (by omega), update_of_ne (by omega)]
    · -- the lowest empty level is the one the entries are in
      obtain rfl : lowest = m + 1 := by omega
      rw [if_neg hlow]
      refine ⟨fun k hk hkm => ?_, ?_, fun k _ => rfl⟩
      · rw [show k = m + 1 by omega, hdata]
        exact filled_of_length_eq (by decide) hlen
      · rw [concat, hdata]

/-- The levels while the gap is closed: those below `low` are filled, those from `low` to `high` are
empty, and those above `high` are as they were. -/
structure Gap (levels : AddrLevels α) (low high n : ℕ) : Prop where
  le : low ≤ high
  lt : high < n
  below : ∀ k < low, Filled level0MaxEntries k (levels k)
  gap : ∀ k, low ≤ k → k ≤ high → levels k = []
  above : ∀ k, high < k → k < n → Filled level0MaxEntries k (levels k)
  empty : ∀ k, n ≤ k → levels k = []

theorem Gap.levelled {low high : ℕ} (h : Gap levels low high n) (hnext : levels (high + 1) = []) :
    Levelled level0MaxEntries levels low := by
  have hend : n = high + 1 := by
    by_contra hne
    have hlt := h.lt
    exact (h.above (high + 1) high.lt_succ_self (by omega)).ne_nil (by decide) hnext
  refine ⟨h.below, fun k hk => ?_⟩
  rcases Nat.lt_or_ge high k with hlt | hge
  · exact h.empty k (by omega)
  · exact h.gap k hk hge

/-- One turn of the backfill. -/
theorem Gap.halveDown {low high m : ℕ} (h : Gap levels low high n) {W : AddrLevels α}
    {data : List α} (hm : low ≤ m) (hW : W m = data) (hlen : data.length = maxEntriesForLevel m)
    (hsame : ∀ k, k < low ∨ high + 1 < k → W k = levels k)
    (htop : m = high ∧ W (high + 1) = [] ∨ m = high + 1)
    (hdata : levels (high + 1) = data) :
    ∃ W', halveDown low m data (maxEntriesForLevel m) W = W' ∧
      (∀ k ≤ m, Filled level0MaxEntries k (W' k)) ∧ (∀ k, high + 1 < k → W' k = levels k) ∧
      (m = high → W' (high + 1) = []) ∧ concat W' (high + 2) = concat levels (high + 2) := by
  obtain ⟨hfilled, hconcat, hother⟩ := halveDown_spec low m data W hm hW hlen
  have hbelow : concat W low = concat levels low := concat_congr fun k hk => hsame k (.inl hk)
  have hgap : concat levels (high + 2) = data ++ concat levels low := by
    rw [concat, hdata,
      concat_of_empty (fun k hk hkh => h.gap k hk (by omega)) (show low ≤ high + 1 from
      Nat.le_succ_of_le h.le)]
  refine ⟨_, rfl, fun k hk => ?_, fun k hk => ?_, fun hmh => ?_, ?_⟩
  · rcases Nat.lt_or_ge k low with hlt | hge
    · rw [hother k (.inl hlt), hsame k (.inl hlt)]
      exact h.below k hlt
    · exact hfilled k hge hk
  · rw [hother k (.inr (by omega)), hsame k (.inr hk)]
  · rw [hother _ (.inr (by omega))]
    exact (htop.resolve_right (by omega)).2
  · rw [hgap, ← hbelow, ← hconcat]
    rcases htop with ⟨rfl, htop⟩ | rfl
    · rw [concat, hother _ (.inr m.lt_succ_self), htop, nil_append]
    · rfl

/-- The backfill closes the gap. -/
theorem backfill_spec :
    ∀ fuel low high (levels : AddrLevels α), Gap levels low high n → n < high + fuel →
    ∃ levels' n', backfill fuel high low levels = .ok levels' ∧
    Levelled level0MaxEntries levels' n' ∧
      ∀ N, n ≤ N → n' ≤ N → concat levels' N = concat levels N := by
  intro fuel
  induction fuel with
  | zero =>
    intro low high levels h hfuel
    have hlt := h.lt
    omega
  | succ fuel ih =>
    intro low high levels h hfuel
    have hhigh : levels high = [] := h.gap high h.le le_rfl
    rw [backfill]
    simp only [hhigh, length_nil, ne_eq, not_true, if_false]
    by_cases hnext : (levels (high + 1)).length = 0
    · rw [if_pos hnext]
      exact ⟨levels, low, rfl, h.levelled (length_eq_zero_iff.1 hnext), fun _ _ _ => rfl⟩
    · rw [if_neg hnext]
      have hlt : high + 1 < n := by
        by_contra hge
        rw [h.empty (high + 1) (by omega)] at hnext
        exact hnext rfl
      have hfilled := h.above (high + 1) high.lt_succ_self hlt
      have hhalf : maxEntriesForLevel (high + 1) / 2 = maxEntriesForLevel high := by
        rw [maxEntriesForLevel_succ, Nat.mul_div_cancel_left _ (by decide)]
      by_cases hfull : (levels (high + 1)).length = maxEntriesForLevel (high + 1)
      · -- a full level is spread over itself and the gap
        simp only [hfull, not_true, if_false]
        obtain ⟨W', hW', hfill, habove, -, hconcat⟩ := h.halveDown (W := levels) (m := high + 1)
          (Nat.le_succ_of_le h.le) rfl hfull (fun _ _ => rfl) (.inr rfl) rfl
        rw [hW']
        obtain ⟨fuel, rfl⟩ : ∃ f, fuel = f + 1 := ⟨fuel - 1, by omega⟩
        have hne := (hfill (high + 1) le_rfl).ne_nil (by decide)
        rw [backfill, if_pos (by rw [ne_eq, length_eq_zero_iff]; exact hne)]
        exact ⟨W', n, rfl, .splice (fun k hk => hfill k (Nat.le_of_lt_succ hk)) habove
          (fun k hk => h.above k (by omega)) h.empty hlt, fun N hN _ =>
            concat_congr_above hconcat habove (by omega)⟩
      · -- a level that is half full moves into the gap and leaves one above it
        simp only [hfull, not_false_eq_true, if_true, Nat.add_sub_cancel, hhalf]
        have hlen : (levels (high + 1)).length = maxEntriesForLevel high :=
          hfilled.resolve_right hfull
        obtain ⟨W', hW', hfill, habove, htop, hconcat⟩ := h.halveDown (m := high)
          (W := update (update levels (high + 1) []) high (levels (high + 1))) h.le
          (update_self _ _ _) hlen
          (fun k hk => by
            have hle := h.le
            rw [update_of_ne (by omega), update_of_ne (by omega)])
          (.inl ⟨rfl, by rw [update_of_ne (by omega), update_self]⟩) rfl
        rw [hW']
        have hgap : Gap W' (high + 1) (high + 1) n := by
          refine ⟨le_rfl, hlt, fun k hk => hfill k (by omega), fun k hk hk' => ?_,
            fun k hk hkn => habove k hk ▸ h.above k (by omega) hkn,
            fun k hk => (habove k (by omega)).trans (h.empty k hk)⟩
          rw [show k = high + 1 by omega]
          exact htop rfl
        obtain ⟨levels', n', hok, hlevelled, hconcat'⟩ :=
          ih (high + 1) (high + 1) W' hgap (by omega)
        refine ⟨levels', n', hok, hlevelled, fun N hN hN' => ?_⟩
        rw [hconcat' N hN hN', concat_congr_above hconcat habove (by omega)]

/-- `dbRemoveAddrIndexEntries` removes the newest entries. -/
theorem dbRemoveAddrIndexEntries_spec (h : Lists level0MaxEntries levels xs)
    (hlen : xs.length < 2^64) {count : ℕ} (hcount : count ≤ xs.length) :
    ∃ levels', dbRemoveAddrIndexEntries levels count = .ok levels' ∧
      Lists level0MaxEntries levels' (xs.take (xs.length - count)) := by
  unfold dbRemoveAddrIndexEntries
  by_cases hzero : count = 0
  · rw [if_pos hzero]
    refine ⟨levels, rfl, ?_⟩
    rwa [hzero, Nat.sub_zero, take_length]
  · rw [if_neg hzero]
    obtain ⟨n, h, rfl⟩ := h
    have hlevels : n ≤ 65 := h.le_of_length_lt (lt_of_lt_of_le hlen (by decide))
    obtain ⟨j, r, hlt, hpos, hr, hsum, hok⟩ := removeNewest_eq h numLevels 0 count
      (by unfold numLevels; omega) (by omega) (by rw [concat, length_nil]; omega) (Nat.zero_le n)
    simp only [concat, length_nil, Nat.zero_add] at hsum
    simp only [Nat.not_lt_zero, if_false] at hok
    simp only [hok, ok_bind]
    rw [← hsum, ← concat_cutAt hlt hr]
    have hcut : cutAt levels j r j = (levels j).take ((levels j).length - r) := by
      rw [cutAt, if_neg (lt_irrefl j), if_pos rfl]
    have habove : ∀ k, j < k → cutAt levels j r k = levels k := by
      intro k hk
      rw [cutAt, if_neg (by omega), if_neg (by omega)]
    by_cases hlow : (cutAt levels j r 0).length = 0
    · rw [if_neg (not_not.2 hlow)]
      have hsize := (h.filled j hlt).length_le
      obtain ⟨t, W, hsquash, ht, -, hfilled, hempty, hconcat, hother⟩ :=
        squash_spec (cutAt levels j r) j (cutAt levels j r j) numLevels (by
          rw [hcut, length_take, Nat.pow_succ, ← Nat.mul_assoc]
          have hone : level0MaxEntries ≤ level0MaxEntries * 2^j :=
            Nat.le_mul_of_pos_right _ (by positivity)
          omega)
      have hbelow : concat (cutAt levels j r) (j + 1) = cutAt levels j r j := by
        have hnil : ∀ k, 0 ≤ k → k < j → cutAt levels j r k = [] := fun k _ hk => if_pos hk
        rw [concat, concat_of_empty hnil (Nat.zero_le j), concat, append_nil]
      rw [hsquash]
      have hsame : ∀ k, j < k → W k = levels k := fun k hk => (hother k hk).trans (habove k hk)
      have hkeep : ∀ N, n ≤ N → concat W N = concat (cutAt levels j r) N := fun N hN =>
        concat_congr_above (hconcat.trans hbelow.symm) hother (by omega)
      have hread : ∀ N, n ≤ N → concat (cutAt levels j r) N = concat (cutAt levels j r) n := by
        intro N hN
        exact concat_of_empty (fun k hk _ => by rw [habove k (by omega), h.empty k hk]) hN
      by_cases htop : t = j + 1
      · -- the cut level is still in use, so nothing has to be filled
        subst htop
        have hne := (hfilled j j.lt_succ_self).ne_nil (by decide)
        refine ⟨W, ?_, n, .splice hfilled hsame (fun k _ => h.filled k) h.empty hlt, hkeep n le_rfl⟩
        rw [show numLevels = 254 + 1 from rfl, backfill, if_pos]
        rwa [ne_eq, length_eq_zero_iff]
      · have hgap : Gap W t j n := ⟨by omega, hlt, hfilled, hempty,
          fun k hk hkn => hsame k hk ▸ h.filled k hkn, fun k hk =>
            (hsame k (by omega)).trans (h.empty k hk)⟩
        obtain ⟨levels', n', hok', hlevelled, hconcat'⟩ := backfill_spec numLevels t j W hgap
          (by unfold numLevels; omega)
        refine ⟨levels', by rw [if_neg htop]; exact hok', n', hlevelled, ?_⟩
        rw [← hlevelled.concat_eq (le_max_left n' n),
          hconcat' _ (le_max_right _ _) (le_max_left _ _),
          hkeep _ (le_max_right _ _), hread _ (le_max_right _ _)]
    · -- the lowest level has entries left
      rw [if_pos hlow]
      have hj : j = 0 := by
        by_contra hne
        rw [cutAt, if_pos (Nat.pos_of_ne_zero hne)] at hlow
        exact hlow rfl
      subst hj
      refine ⟨_, rfl, n,
        .splice (m := 1) (fun k hk => ?_) habove (fun k _ => h.filled k) h.empty hlt, rfl⟩
      have hle := (h.filled 0 hlt).2
      rw [Nat.lt_one_iff.1 hk]
      refine ⟨mt length_eq_zero_iff.2 hlow, ?_⟩
      rw [hcut, length_take]
      omega

end Remove

end Hcashd.Indexers
