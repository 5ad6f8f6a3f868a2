import Hcashd.Errors
import Hcashd.Lib.Result
import Hcashd.Stake.TicketTreap

/-!
# The ticket lottery

`blockchain/stake/lottery.go`: the hash-based random number generator, the draw of distinct ticket
numbers, and the walk over the live tickets that turns numbers into winners.

The generator's rejection loop and the draw have no bound in the source; here they run on `fuel`.
What a draw returns when it finishes is `findTicketIdxs_spec`: as many numbers as asked for,
distinct, each below the number of tickets. It finishes when enough distinct numbers come up
(`exists_findTicketIdxs`). `fetchWinners` walks the treap once with the numbers sorted;
`fetchWinners_spec` says that the winner in each place is the ticket with the number drawn there. It
is stated for the map of a treap, and `Immutable.fetchWinners_eq` carries it over to the treap.
-/

namespace Hcashd.Stake

open Lib List Treap

/-- `Hash256PRNG`: the generator of the lottery. -/
structure Hash256PRNG where
  seed : Hash
  -- Position in the cached hash, and in the hash iterator.
  hashIdx : ℕ
  idx : ℕ
  lastHash : Hash
  deriving DecidableEq, Repr

/-- `seedConst`: the first digits of π. -/
def seedConst : List UInt8 := [0x24, 0x3F, 0x6A, 0x88, 0x85, 0xA3, 0x08, 0xD3]

section

variable (hashH : List UInt8 → Hash)

/-- `NewHash256PRNG`: a generator from the hash of a seed. -/
def newHash256PRNG (seed : List UInt8) : Hash256PRNG :=
  let seedHash := hashH (seed ++ seedConst)
  { seed := seedHash, hashIdx := 0, idx := 0, lastHash := seedHash }

/-- `StateHash`: a hash of the whole state. -/
def Hash256PRNG.stateHash (hp : Hash256PRNG) : Hash :=
  hashH (hp.lastHash.bytes ++ beBytes 4 hp.idx ++ [UInt8.ofNat hp.hashIdx])

/-- `Hash256Rand`: the next word, and a new hash after eight of them. -/
def Hash256PRNG.hash256Rand (hp : Hash256PRNG) : ℕ × Hash256PRNG :=
  let r := ofLeBytes ((hp.lastHash.bytes.drop (hp.hashIdx * 4)).take 4).reverse
  let hp := { hp with hashIdx := hp.hashIdx + 1 }
  -- Roll over the hash index.
  let hp := if 7 < hp.hashIdx then
    { hp with
      lastHash := hashH (hp.seed.bytes ++ beBytes 4 hp.idx), idx := hp.idx + 1, hashIdx := 0 }
    else hp
  -- Roll over the generator by hashing the seed again.
  let hp := if 0xFFFFFFFF < hp.idx then
    let seed := hashH hp.seed.bytes
    { hp with seed := seed, lastHash := seed, idx := 0 }
    else hp
  (r, hp)

/-- The loop of `uniformRandom`: draw until the number is at least `min`. -/
def Hash256PRNG.randAtLeast (min : ℕ) : ℕ → Hash256PRNG → Except Err (ℕ × Hash256PRNG)
  | 0, _ => .error .outOfFuel
  | fuel + 1, hp =>
    let (r, hp) := hp.hash256Rand hashH
    if min ≤ r then .ok (r, hp) else Hash256PRNG.randAtLeast min fuel hp

/-- The variable `min` of `uniformRandom`: the numbers below it would make the result uneven. -/
def uniformMin (upperBound : ℕ) : ℕ :=
  if 0x80000000 < upperBound then u32 (1 + (0xFFFFFFFF - upperBound))
  else u32 (u32Sub 0xFFFFFFFF (u32 (upperBound * 2)) + 1) % upperBound

/-- `UniformRandom`: a number below a bound, without bias. -/
def Hash256PRNG.uniformRandom (fuel : ℕ) (hp : Hash256PRNG) (upperBound : ℕ) :
    Except Err (ℕ × Hash256PRNG) :=
  if upperBound < 2 then .ok (0, hp) else do
    let (r, hp) ← hp.randAtLeast hashH (uniformMin upperBound) fuel
    pure (r % upperBound, hp)

/-- The loop of `findTicketIdxs`: draw until `n` distinct numbers are in the list. -/
def drawTicketIdxs (fuel sz n : ℕ) : ℕ → Hash256PRNG → List ℕ → Except Err (List ℕ × Hash256PRNG)
  | 0, prng, list => if list.length < n then .error .outOfFuel else .ok (list, prng)
  | steps + 1, prng, list =>
    if list.length < n then do
      let (r, prng) ← prng.uniformRandom hashH fuel sz
      drawTicketIdxs fuel sz n steps prng (if r ∈ list then list else list ++ [r])
    else .ok (list, prng)

/-- `findTicketIdxs`: distinct numbers of tickets. -/
def findTicketIdxs (fuel size n : ℕ) (prng : Hash256PRNG) : Except Err (List ℕ × Hash256PRNG) := do
  rejectIf (size < n) Err.other
  rejectIf (0xFFFFFFFF < size) Err.other
  drawTicketIdxs hashH fuel size n fuel prng []

end

/-- The variables of the walk in `fetchWinners`. -/
structure WinnerScan where
  idx : ℕ
  -- Place in the sorted numbers of the next one to look for.
  winnerIdx : ℕ
  -- The winners found, in the order of the numbers as they were drawn.
  winners : List (Option Hash)

/-- The function that `fetchWinners` gives to `ForEach`. Past the greatest number it stops the
walk. -/
def WinnerScan.visit (idxs sortedIdxs : List ℕ) (maxIdx : ℕ) (w : WinnerScan) (kv : Hash × Value) :
    WinnerScan × Bool :=
  if maxIdx < w.idx then (w, false)
  else if sortedIdxs[w.winnerIdx]? = some w.idx then
    ({ idx := w.idx + 1
       winnerIdx := if w.winnerIdx + 1 < sortedIdxs.length then w.winnerIdx + 1 else w.winnerIdx
       winners := w.winners.set (idxs.idxOf w.idx) (some kv.1) }, true)
  else ({ w with idx := w.idx + 1 }, true)

/-- The body of `fetchWinners`, for the length of a treap and its `ForEach`. A list of numbers that
is nil in the source is the empty list here; a place that the walk leaves empty is a nil pointer
that the caller reads. -/
def fetchWinnersBy (idxs : List ℕ) (len : ℕ)
    (forEach : (WinnerScan → Hash × Value → WinnerScan × Bool) → WinnerScan → WinnerScan) :
    Except Err (List Hash) := do
  rejectIf (idxs = []) Err.other
  rejectIf (len = 0) Err.other
  let maxIdx := idxs.foldl max 0
  rejectIf (len ≤ maxIdx) Err.other
  let sortedIdxs := idxs.insertionSort (· ≤ ·)
  let scan := forEach (WinnerScan.visit idxs sortedIdxs maxIdx)
    { idx := 0, winnerIdx := 0, winners := idxs.map fun _ => none }
  scan.winners.mapM fun w => match w with
    | some k => .ok k
    | none => .error .panic

/-- `fetchWinners`. -/
def Immutable.fetchWinners (t : Immutable) (idxs : List ℕ) : Except Err (List Hash) :=
  fetchWinnersBy idxs t.len t.forEach

/-- `fetchWinners` on the map of a treap. -/
def fetchWinners (idxs : List ℕ) (t : TicketTreap) : Except Err (List Hash) :=
  fetchWinnersBy idxs t.size fun fn s => foldWhile fn s t.toList

/-- `fetchExpired`. -/
def Immutable.fetchExpired (t : Immutable) (height : ℕ) : List Hash :=
  t.forEach (fun expired kv =>
    (if kv.2.keyHeight ≤ height then expired ++ [kv.1] else expired, true)) []

/-- `fetchExpired` on the map of a treap. -/
def fetchExpired (height : ℕ) (t : TicketTreap) : List Hash :=
  (t.toList.filter fun kv => kv.2.keyHeight ≤ height).map Prod.fst

/-- The winners of a treap are those of its map. -/
theorem Immutable.fetchWinners_eq (t : Immutable) (idxs : List ℕ) :
    t.fetchWinners idxs = Stake.fetchWinners idxs t.toMap := by
  unfold Immutable.fetchWinners Stake.fetchWinners
  rw [t.size_toMap]
  congr 1
  funext fn s
  exact t.forEach_eq fn s

theorem foldWhile_filter {α β : Type} (p : α → Prop) [DecidablePred p] (f : α → β) (bs : List β)
    (as : List α) :
    foldWhile (fun bs a => (if p a then bs ++ [f a] else bs, true)) bs as =
      bs ++ (as.filter p).map f := by
  induction as generalizing bs with
  | nil => simp [foldWhile]
  | cons a as ih =>
    rw [foldWhile, if_pos rfl, ih]
    by_cases ha : p a <;> simp [ha]

/-- The expired tickets of a treap are those of its map. -/
theorem Immutable.fetchExpired_eq (t : Immutable) (height : ℕ) :
    t.fetchExpired height = Stake.fetchExpired height t.toMap := by
  rw [Immutable.fetchExpired, t.forEach_eq, foldWhile_filter, nil_append, Stake.fetchExpired]

/-! ## What a draw returns -/

section

variable {hashH : List UInt8 → Hash}

/-- A number that is drawn is below the bound. -/
theorem uniformRandom_lt {fuel bound r : ℕ} {hp hp' : Hash256PRNG} (hb : 0 < bound)
    (h : hp.uniformRandom hashH fuel bound = .ok (r, hp')) : r < bound := by
  unfold Hash256PRNG.uniformRandom at h
  split_ifs at h with h2
  · cases h
    exact hb
  · simp only [bind_eq_ok, pure_eq_ok, Prod.exists, Prod.mk.injEq] at h
    obtain ⟨x, _, _, rfl, _⟩ := h
    exact Nat.mod_lt _ hb

theorem card_filter_mod_eq {r bound : ℕ} (hr : r < bound) (start m : ℕ) :
    ((Finset.Ico start (start + bound * m)).filter (· % bound = r)).card = m := by
  have hperiodic : Function.Periodic (fun w => w % bound = r) bound := fun w => by simp
  have hcount : bound.count (fun w => w % bound = r) = 1 := by
    rw [Nat.count_eq_card_filter_range, Finset.card_eq_one]
    refine ⟨r, Finset.ext fun w => ?_⟩
    simp only [Finset.mem_filter, Finset.mem_range, Finset.mem_singleton]
    constructor
    · rintro ⟨hw, rfl⟩
      exact (Nat.mod_eq_of_lt hw).symm
    · rintro rfl
      exact ⟨hr, Nat.mod_eq_of_lt hr⟩
  induction m with
  | zero => simp
  | succ m ih =>
    have hlast := Nat.filter_Ico_card_eq_of_periodic (start + bound * m) bound _ hperiodic
    rw [Nat.mul_succ, ← Nat.add_assoc,
      ← Finset.Ico_union_Ico_eq_Ico (Nat.le_add_right _ _) (Nat.le_add_right _ _),
      Finset.filter_union, Finset.card_union_of_disjoint, ih, hlast, hcount]
    exact Finset.disjoint_filter_filter (Finset.Ico_disjoint_Ico_consecutive _ _ _)

/-- The range of the draws is a multiple of the bound. -/
theorem uniformMin_add_mul {bound : ℕ} (h2 : 2 ≤ bound) (hb : bound < 2 ^ 32) :
    ∃ m, uniformMin bound + bound * m = 2 ^ 32 := by
  unfold uniformMin
  split_ifs with hbig
  · exact ⟨1, by unfold u32; omega⟩
  · -- The remainder is that of `2^32`; twice `2^31` wraps to 0, which has the same one.
    obtain hwrap | hwrap :
      u32 (u32Sub 0xFFFFFFFF (u32 (bound * 2)) + 1) + bound * 2 = 2 ^ 32 ∨ bound = 2 ^ 31 := by
      unfold u32Sub u32
      omega
    · refine ⟨u32 (u32Sub 0xFFFFFFFF (u32 (bound * 2)) + 1) / bound + 2, ?_⟩
      rw [mul_add, ← add_assoc, Nat.mod_add_div, hwrap]
    · subst hwrap
      exact ⟨2, by decide⟩

/-- The loop draws distinct indexes. -/
theorem drawTicketIdxs_spec {fuel sz n : ℕ} (hsz : n ≤ sz) {steps : ℕ} {prng prng' : Hash256PRNG}
    {list idxs : List ℕ} (hlen : list.length ≤ n) (hnodup : list.Nodup) (hlt : ∀ i ∈ list, i < sz)
    (h : drawTicketIdxs hashH fuel sz n steps prng list = .ok (idxs, prng')) :
    idxs.length = n ∧ idxs.Nodup ∧ ∀ i ∈ idxs, i < sz := by
  induction steps generalizing prng list with
  | zero =>
    unfold drawTicketIdxs at h
    split_ifs at h with hn
    cases h
    exact ⟨by omega, hnodup, hlt⟩
  | succ steps ih =>
    unfold drawTicketIdxs at h
    split_ifs at h with hn
    · simp only [bind_eq_ok, Prod.exists] at h
      obtain ⟨r, prng1, hr, hrest⟩ := h
      split_ifs at hrest with hmem
      · exact ih hlen hnodup hlt hrest
      · have hrsz : r < sz := uniformRandom_lt (by omega) hr
        refine ih ?_ ?_ ?_ hrest
        · rw [length_append, length_singleton]
          omega
        · exact nodup_append'.2 ⟨hnodup, nodup_singleton r, by simpa using hmem⟩
        · intro i hi
          rcases mem_append.1 hi with hi | hi
          · exact hlt i hi
          · exact mem_singleton.1 hi ▸ hrsz
    · cases h
      exact ⟨by omega, hnodup, hlt⟩

/-- What a finished draw returns. -/
theorem findTicketIdxs_spec {fuel size n : ℕ} {prng prng' : Hash256PRNG} {idxs : List ℕ}
    (h : findTicketIdxs hashH fuel size n prng = .ok (idxs, prng')) :
    idxs.length = n ∧ idxs.Nodup ∧ ∀ i ∈ idxs, i < size := by
  unfold findTicketIdxs at h
  simp only [bind_eq_ok, rejectIf_eq_ok, not_lt] at h
  obtain ⟨_, hsize, _, _, hdraw⟩ := h
  exact drawTicketIdxs_spec hsize (by simp) nodup_nil (by simp) hdraw

/-- The first results of `uniformRandom` below `sz`. -/
def draws (hashH : List UInt8 → Hash) (fuel sz : ℕ) : ℕ → Hash256PRNG → Except Err (List ℕ)
  | 0, _ => .ok []
  | k + 1, prng => do
    let (r, prng) ← prng.uniformRandom hashH fuel sz
    let rs ← draws hashH fuel sz k prng
    pure (r :: rs)

/-- The loop ends once enough distinct numbers were drawn. -/
theorem exists_drawTicketIdxs {fuel sz n k steps : ℕ} {prng : Hash256PRNG} {list rs : List ℕ}
    (hdraws : draws hashH fuel sz k prng = .ok rs) (hn : n ≤ (list ++ rs).toFinset.card)
    (hk : k ≤ steps) :
    ∃ result, drawTicketIdxs hashH fuel sz n steps prng list = .ok result := by
  induction k generalizing steps prng list rs with
  | zero =>
    cases hdraws
    have hlen : ¬ list.length < n := by
      rw [append_nil] at hn
      exact not_lt.2 (hn.trans (toFinset_card_le list))
    cases steps <;> exact ⟨_, if_neg hlen⟩
  | succ k ih =>
    obtain ⟨steps, rfl⟩ := Nat.exists_eq_add_of_le' (Nat.one_le_of_lt hk)
    simp only [draws, bind_eq_ok, pure_eq_ok, Prod.exists] at hdraws
    obtain ⟨r, prng', hr, rs', hrs, rfl⟩ := hdraws
    unfold drawTicketIdxs
    split_ifs with hlen
    · rw [hr]
      refine ih hrs ?_ (by omega)
      -- the number drawn is in the list afterwards
      refine hn.trans_eq (congrArg Finset.card (Finset.ext fun i => ?_))
      split_ifs with hmem <;> simp only [mem_toFinset, mem_append, mem_cons] <;> grind
    · exact ⟨_, rfl⟩

/-- A draw finishes once as many distinct numbers have come up as are asked for. -/
theorem exists_findTicketIdxs {fuel size n k : ℕ} {prng : Hash256PRNG} {rs : List ℕ}
    (hsize : n ≤ size)
    (hword : size < 2 ^ 32) (hk : k ≤ fuel) (hdraws : draws hashH fuel size k prng = .ok rs)
    (hn : n ≤ rs.toFinset.card) : ∃ result, findTicketIdxs hashH fuel size n prng = .ok result := by
  unfold findTicketIdxs
  rw [rejectIf_bind (not_lt.2 hsize), rejectIf_bind (by omega)]
  exact exists_drawTicketIdxs hdraws hn hk

end

/-! ## The walk over the treap -/

theorem getElem?_countP_lt {α : Type} [LinearOrder α] {s : List α}
    (hs : s.Pairwise (· < ·)) (j : α) :
    s[s.countP (· < j)]? = some j ↔ j ∈ s := by
  induction s with
  | nil => simp
  | cons a s ih =>
    rw [pairwise_cons] at hs
    by_cases ha : a < j
    · simp [ha, ha.ne', ih hs.2]
    · -- Everything after `a` is larger still, so none is below `j`.
      have hzero : s.countP (· < j) = 0 := by
        rw [countP_eq_zero]
        intro x hx
        simpa using (not_lt.1 ha).trans (hs.1 x hx).le
      have hnot : j ∉ s := fun hj => ha (hs.1 j hj)
      simp [ha, hzero, hnot, eq_comm]

theorem countP_lt_succ (s : List ℕ) (j : ℕ) :
    s.countP (· < j + 1) = s.countP (· < j) + s.count j := by
  induction s with
  | nil => simp
  | cons a s ih =>
    simp only [countP_cons, count_cons, ih, decide_eq_true_eq, beq_iff_eq]
    split_ifs <;> omega

/-- The walk after the first `j` tickets `ks`: it knows the winners with numbers below `j`. -/
structure WinnerScan.At (idxs sortedIdxs : List ℕ) (ks : List Hash) (j : ℕ) (w : WinnerScan) :
    Prop where
  idx : w.idx = j
  winnerIdx : w.winnerIdx = min (sortedIdxs.countP (· < j)) (sortedIdxs.length - 1)
  winners : w.winners = idxs.map fun i => if i < j then ks[i]? else none

section

variable {idxs sortedIdxs : List ℕ} {ks : List Hash}

variable {w : WinnerScan}

/-- The scan stops at the indexes that were drawn. -/
theorem WinnerScan.At.found_iff {j : ℕ} (hw : w.At idxs sortedIdxs ks j)
    (hperm : sortedIdxs.Perm idxs) (hsorted : sortedIdxs.Pairwise (· < ·)) :
    sortedIdxs[w.winnerIdx]? = some w.idx ↔ j ∈ idxs := by
  rw [hw.idx, hw.winnerIdx, ← hperm.mem_iff, ← getElem?_countP_lt hsorted j]
  have hle : sortedIdxs.countP (· < j) ≤ sortedIdxs.length := countP_le_length
  rcases hle.lt_or_eq with hlt | heq
  · rw [min_eq_left (by omega)]
  · -- All numbers are below `j`: the last one is not `j`, and there is none after it.
    rw [heq]
    constructor
    · intro hget
      have hlast := countP_eq_length.1 heq _ (mem_of_getElem? hget)
      simp at hlast
    · simp

/-- One visit of the scan. -/
theorem WinnerScan.At.visit {j maxIdx : ℕ} {kv : Hash × Value} (hw : w.At idxs sortedIdxs ks j)
    (hperm : sortedIdxs.Perm idxs) (hsorted : sortedIdxs.Pairwise (· < ·)) (hmax : j ≤ maxIdx)
    (hk : ks[j]? = some kv.1) : ∃ w', w.visit idxs sortedIdxs maxIdx kv = (w', true) ∧
      w'.At idxs sortedIdxs ks (j + 1) := by
  have hfound := hw.found_iff hperm hsorted
  have hnodup : sortedIdxs.Nodup := hsorted.imp fun h => h.ne
  have hcount := countP_lt_succ sortedIdxs j
  have hle : sortedIdxs.countP (· < j + 1) ≤ sortedIdxs.length := countP_le_length
  unfold WinnerScan.visit
  rw [if_neg (by rw [hw.idx]; omega)]
  by_cases hj : j ∈ idxs
  · rw [if_pos (hfound.2 hj)]
    rw [count_eq_one_of_mem hnodup (hperm.mem_iff.2 hj)] at hcount
    refine ⟨_, rfl, by rw [hw.idx], ?_, ?_⟩
    · simp only [hw.winnerIdx]
      split_ifs <;> omega
    · -- The place of `j` gets its ticket, and every other place keeps what it has.
      simp only [hw.winners, hw.idx]
      apply ext_getElem?
      intro q
      rw [getElem?_set]
      simp only [getElem?_map, length_map]
      have hidx := idxOf_lt_length_of_mem hj
      split_ifs with hq
      · subst hq
        simp [getElem?_eq_getElem hidx, hk]
      · cases hget : idxs[q]? with
        | none => rfl
        | some i =>
          have hne : i ≠ j := by
            rintro rfl
            have hq' := List.getElem?_eq_some_iff.1 hget
            obtain ⟨hlt, heq⟩ := hq'
            apply hq
            have := (hperm.nodup_iff.1 hnodup).idxOf_getElem q hlt
            rw [heq] at this
            exact this
          simp only [Option.map_some, Option.some.injEq]
          split_ifs <;> first | rfl | omega
  · rw [if_neg (fun h => hj (hfound.1 h))]
    rw [count_eq_zero_of_not_mem (fun h => hj (hperm.mem_iff.1 h))] at hcount
    refine ⟨_, rfl, by rw [hw.idx], ?_, ?_⟩
    · simp only [hw.winnerIdx, hcount, Nat.add_zero]
    · simp only [hw.winners]
      apply map_congr_left
      intro i hi
      have hne : i ≠ j := fun h => hj (h ▸ hi)
      split_ifs <;> first | rfl | omega

/-- The walk ends with the ticket of each number in the number's place. -/
theorem WinnerScan.foldWhile_visit {maxIdx : ℕ} (hperm : sortedIdxs.Perm idxs)
    (hsorted : sortedIdxs.Pairwise (· < ·)) (hmax : ∀ i ∈ idxs, i ≤ maxIdx)
    (hlt : ∀ i ∈ idxs, i < ks.length) {j : ℕ} {rest : List (Hash × Value)}
    (hrest : ks.drop j = rest.map Prod.fst) (hw : w.At idxs sortedIdxs ks j) :
    (foldWhile (WinnerScan.visit idxs sortedIdxs maxIdx) w rest).winners = idxs.map fun i =>
      ks[i]? := by
  have hknown : ∀ {w : WinnerScan} {j : ℕ}, w.At idxs sortedIdxs ks j → (∀ i ∈ idxs, i < j) →
      w.winners = idxs.map fun i => ks[i]? := by
    intro w j hw hj
    rw [hw.winners]
    exact map_congr_left fun i hi => if_pos (hj i hi)
  induction rest generalizing j w with
  | nil =>
    rw [map_nil, drop_eq_nil_iff] at hrest
    exact hknown hw fun i hi => (hlt i hi).trans_le hrest
  | cons kv rest ih =>
    have hk : ks[j]? = some kv.1 := by
      rw [← head?_drop, hrest, map_cons, head?_cons]
    have hrest' : ks.drop (j + 1) = rest.map Prod.fst := by
      rw [← tail_drop, hrest, map_cons, tail_cons]
    rw [foldWhile]
    by_cases hj : j ≤ maxIdx
    · obtain ⟨w', hvisit, hw'⟩ := hw.visit hperm hsorted hj hk
      rw [hvisit, if_pos rfl]
      exact ih hrest' hw'
    · -- Past the greatest number the walk ends.
      have hstop : w.visit idxs sortedIdxs maxIdx kv = (w, false) := if_pos (by rw [hw.idx]; omega)
      rw [hstop, if_neg Bool.false_ne_true]
      exact hknown hw fun i hi => (hmax i hi).trans_lt (not_le.1 hj)

end

theorem mapM_some_eq_ok {ws : List (Option Hash)} {ks : List Hash} : (ws.mapM fun w => match w with
      | some k => Except.ok k
      | none => Except.error Err.panic) = .ok ks ↔ ks.map some = ws := by
  induction ws generalizing ks with
  | nil => rw [mapM_nil, pure_eq_ok, map_eq_nil_iff, eq_comm]
  | cons w ws ih =>
    rw [mapM_cons]
    simp only [bind_eq_ok, pure_eq_ok, ih]
    constructor
    · rintro ⟨k, hk, ks', rfl, rfl⟩
      cases w with
      | none => simp at hk
      | some k' => rw [map_cons, ← Except.ok.inj hk]
    · intro h
      obtain ⟨k, ks', rfl, rfl, rfl⟩ := map_eq_cons_iff.1 h
      exact ⟨k, rfl, ks', rfl, rfl⟩

theorem foldl_max_le_iff (l : List ℕ) (a b : ℕ) : l.foldl max a ≤ b ↔ a ≤ b ∧ ∀ i ∈ l, i ≤ b := by
  induction l generalizing a with
  | nil => simp
  | cons c l ih => simp [ih, and_assoc]

variable {t : TicketTreap} {winners : List Hash}

/-- When there are winners, and who they are. -/
theorem fetchWinners_eq_ok_iff {idxs : List ℕ} (hnodup : idxs.Nodup) :
    fetchWinners idxs t = .ok winners ↔
    idxs ≠ [] ∧ (∀ i ∈ idxs, i < t.size) ∧ winners.map some = idxs.map fun i => t.keys[i]? := by
  have hle : ∀ i ∈ idxs, i ≤ idxs.foldl max 0 := ((foldl_max_le_iff idxs 0 _).1 le_rfl).2
  have hperm := perm_insertionSort (· ≤ ·) idxs
  have hsorted : (idxs.insertionSort (· ≤ ·)).Pairwise (· < ·) := by
    have hle := pairwise_insertionSort (· ≤ ·) idxs
    exact (hle.and (hperm.nodup_iff.2 hnodup)).imp fun h => lt_of_le_of_ne h.1 h.2
  have hscan (hlt : ∀ i ∈ idxs, i < t.size) :
      (foldWhile (WinnerScan.visit idxs (idxs.insertionSort (· ≤ ·)) (idxs.foldl max 0))
        { idx := 0, winnerIdx := 0, winners := idxs.map fun _ => none } t.toList).winners =
          idxs.map fun i => t.keys[i]? := by
    rw [← Std.ExtTreeMap.length_keys] at hlt
    have hkeys : t.keys.drop 0 = t.toList.map Prod.fst := Std.ExtTreeMap.map_fst_toList_eq_keys.symm
    exact WinnerScan.foldWhile_visit hperm hsorted hle hlt hkeys ⟨rfl, by simp, by simp⟩
  unfold fetchWinners fetchWinnersBy
  simp only [bind_eq_ok, rejectIf_eq_ok, not_le, exists_const, mapM_some_eq_ok]
  constructor
  · rintro ⟨hne, -, hmax, hwinners⟩
    have hlt : ∀ i ∈ idxs, i < t.size := fun i hi => (hle i hi).trans_lt hmax
    exact ⟨hne, hlt, by rw [hwinners, hscan hlt]⟩
  · rintro ⟨hne, hlt, hwinners⟩
    obtain ⟨i, hi⟩ := exists_mem_of_ne_nil idxs hne
    have hpos : 0 < t.size := (Nat.zero_le i).trans_lt (hlt i hi)
    have hmax :=
      (foldl_max_le_iff idxs 0 (t.size - 1)).2
        ⟨Nat.zero_le _, fun i hi => Nat.le_sub_one_of_lt (hlt i hi)⟩
    exact ⟨hne, hpos.ne', by omega, by rw [hwinners, hscan hlt]⟩

section Winners

variable {idxs : List ℕ} (hnodup : idxs.Nodup) (h : fetchWinners idxs t = .ok winners)

include hnodup h

/-- The winners are the keys at the indexes. -/
theorem fetchWinners_spec : winners.map some = idxs.map fun i => t.keys[i]? :=
  ((fetchWinners_eq_ok_iff hnodup).1 h).2.2

/-- A winner is in the treap. -/
theorem mem_of_mem_fetchWinners {k : Hash} (hk : k ∈ winners) : k ∈ t := by
  have hmem : some k ∈ winners.map some := mem_map_of_mem hk
  rw [fetchWinners_spec hnodup h, mem_map] at hmem
  obtain ⟨i, _, hi⟩ := hmem
  exact Std.ExtTreeMap.mem_keys.1 (mem_of_getElem? hi)

theorem length_fetchWinners : winners.length = idxs.length := by
  have := congrArg length (fetchWinners_spec hnodup h)
  simpa using this

/-- No ticket wins twice. -/
theorem nodup_fetchWinners : winners.Nodup := by
  have hspec := fetchWinners_spec hnodup h
  rw [← nodup_map_iff (Option.some_injective Hash), hspec]
  refine hnodup.map_on fun i hi j hj hij => ?_
  -- A number that was drawn is the place of some key, and the keys are distinct.
  have hsome : ∃ k, t.keys[i]? = some k := by
    have hmem : t.keys[i]? ∈ winners.map some := by
      rw [hspec]
      exact mem_map_of_mem (f := fun i => t.keys[i]?) hi
    obtain ⟨k, _, hk⟩ := mem_map.1 hmem
    exact ⟨k, hk.symm⟩
  obtain ⟨k, hk⟩ := hsome
  have hkeys : t.keys.Nodup := by
    have := Std.ExtTreeMap.distinct_keys (t := t)
    exact this.imp fun h heq => h (by simp [heq])
  obtain ⟨hlt, _⟩ := List.getElem?_eq_some_iff.1 hk
  exact (getElem?_inj hlt hkeys).1 hij

/-- A winner's index is its rank. -/
theorem countP_lt_of_fetchWinners {i : ℕ} {k : Hash} (hk : winners[i]? = some k) :
    idxs[i]? = some (t.keys.countP (· < k)) := by
  have hspec := congrArg (·[i]?) (fetchWinners_spec hnodup h)
  simp only [getElem?_map, hk, Option.map_some] at hspec
  obtain ⟨idx, hidx, hkey⟩ := Option.map_eq_some_iff.1 hspec.symm
  have hsorted : t.keys.Pairwise (· < ·) := by
    refine (Std.ExtTreeMap.ordered_keys (t := t)).imp fun hlt => ?_
    exact compare_lt_iff_lt.1 hlt
  have hrank := (getElem?_countP_lt hsorted k).2 (mem_of_getElem? hkey)
  obtain ⟨hlt, -⟩ := List.getElem?_eq_some_iff.1 hkey
  rw [hidx, (getElem?_inj hlt (hsorted.imp fun h => h.ne)).1 (hkey.trans hrank.symm)]

end Winners

/-- The walk over a treap finds the ticket of each rank: as many tickets of the treap have smaller
hashes. -/
theorem Immutable.fetchWinners_spec (t : Immutable) {idxs : List ℕ} (hne : idxs ≠ [])
    (hnodup : idxs.Nodup)
    (hlt : ∀ i ∈ idxs, i < t.len) : ∃ winners, t.fetchWinners idxs = .ok winners ∧
      winners.length = idxs.length ∧ winners.Nodup ∧ ∀ (i : ℕ) (k : Hash), winners[i]? = some k →
        t.has k ∧ idxs[i]? = some {j | t.has j ∧ j < k}.ncard := by
  have hkeys : ∀ i ∈ idxs, i < t.toMap.keys.length := by
    rw [Std.ExtTreeMap.length_keys, t.size_toMap]
    exact hlt
  have hmem : ∀ k, k ∈ t.toMap ↔ t.has k := fun k => by
    rw [← Std.ExtTreeMap.isSome_getElem?_iff_mem, t.getElem?_toMap]
    rfl
  -- The ranks are counted in the list of the keys, which are distinct.
  have hcard (k : Hash) : {j | t.has j ∧ j < k}.ncard = t.toMap.keys.countP (· < k) := by
    have hset : {j | t.has j ∧ j < k} = ((t.toMap.keys.filter (· < k)).toFinset : Set Hash) := by
      ext j
      simp [← hmem]
    rw [hset, Set.ncard_coe_finset, toFinset_card_of_nodup, countP_eq_length_filter]
    exact (Std.ExtTreeMap.distinct_keys.imp fun h heq => h (by simp [heq])).filter _
  obtain ⟨winners, hwinners⟩ :
    ∃ winners : List Hash, winners.map some = idxs.map fun i => t.toMap.keys[i]? := by
    refine ⟨idxs.map fun i => t.toMap.keys.getD i 0, ?_⟩
    rw [map_map]
    exact map_congr_left fun i hi => by simp [getElem?_eq_getElem (hkeys i hi)]
  have hok := (fetchWinners_eq_ok_iff hnodup).2 ⟨hne, t.size_toMap ▸ hlt, hwinners⟩
  refine ⟨winners, (t.fetchWinners_eq idxs).trans hok, length_fetchWinners hnodup hok,
    nodup_fetchWinners hnodup hok, fun i k hk => ⟨?_, ?_⟩⟩
  · exact (hmem k).1 (mem_of_mem_fetchWinners hnodup hok (mem_of_getElem? hk))
  · rw [hcard]
    exact countP_lt_of_fetchWinners hnodup hok hk

/-- The lottery is fair: `uniformRandom` takes the first word that it accepts, and accepts equally
many words with each remainder. The draws are distinct numbers of tickets, and they end once enough
distinct numbers have come up. The winners are the tickets of these ranks in the treap, in the order
of the draws. -/
theorem lottery_fair (hashH : List UInt8 → Hash) :
    (∀ bound, 2 ≤ bound → bound < 2 ^ 32 →
      (∀ fuel hp, Hash256PRNG.uniformRandom hashH (fuel + 1) hp bound =
        let (w, hp) := hp.hash256Rand hashH
        if uniformMin bound ≤ w then .ok (w % bound, hp) else hp.uniformRandom hashH fuel bound) ∧
      ∃ m, ((Finset.range (2 ^ 32)).filter (uniformMin bound ≤ ·)).card = bound * m ∧ ∀ r < bound,
        ((Finset.range (2 ^ 32)).filter fun w => uniformMin bound ≤ w ∧ w % bound = r).card = m) ∧
    (∀ fuel size n prng, n ≤ size → size < 2 ^ 32 →
      (∀ idxs prng', findTicketIdxs hashH fuel size n prng = .ok (idxs, prng') →
        idxs.length = n ∧ idxs.Nodup ∧ ∀ i ∈ idxs, i < size) ∧
      ∀ k ≤ fuel, ∀ rs, draws hashH fuel size k prng = .ok rs → n ≤ rs.toFinset.card →
        ∃ result, findTicketIdxs hashH fuel size n prng = .ok result) ∧
    ∀ (t : Immutable) (idxs : List ℕ), idxs ≠ [] → idxs.Nodup → (∀ i ∈ idxs, i < t.len) →
      ∃ winners, t.fetchWinners idxs = .ok winners ∧ winners.length = idxs.length ∧ winners.Nodup ∧
        ∀ (i : ℕ) (k : Hash), winners[i]? = some k →
          t.has k ∧ idxs[i]? = some {j | t.has j ∧ j < k}.ncard := by
  refine ⟨fun bound h2 hb => ⟨fun fuel hp => ?_, ?_⟩, fun fuel size n prng hsize hword =>
    ⟨?_, ?_⟩, ?_⟩
  · have h2' : ¬ bound < 2 := not_lt.2 h2
    simp only [Hash256PRNG.uniformRandom, if_neg h2', Hash256PRNG.randAtLeast]
    split_ifs <;> rfl
  · obtain ⟨m, hm⟩ := uniformMin_add_mul h2 hb
    have hIco : (Finset.range (2 ^ 32)).filter (uniformMin bound ≤ ·) =
        Finset.Ico (uniformMin bound) (uniformMin bound + bound * m) := by
      ext w
      simp only [hm, Finset.mem_filter, Finset.mem_range, Finset.mem_Ico, and_comm]
    refine ⟨m, by rw [hIco, Nat.card_Ico, Nat.add_sub_cancel_left], fun r hr => ?_⟩
    rw [← Finset.filter_filter, hIco, card_filter_mod_eq hr]
  · exact fun _ _ h => findTicketIdxs_spec h
  · exact fun k hk rs hdraws hn => exists_findTicketIdxs hsize hword hk hdraws hn
  · exact fun t _ hne hnodup hlt => t.fetchWinners_spec hne hnodup hlt

/-- Four tickets are bought, each with a priority below the earlier ones, and one of them is
gone. -/
def sampleTickets : Immutable :=
  ((((Immutable.newImmutable.put 30 ⟨5, 1, false, false, false, false⟩ 4).put 10
    ⟨6, 2, false, false, false, false⟩ 3).put 20 ⟨7, 2, false, false, false, false⟩ 2).put 40
    ⟨8, 2, false, false, false, false⟩ 1).delete 20

/-- A hash function that only counts the bytes, and spreads the count over the last three words. -/
def countingHash (bs : List UInt8) : Hash := Hash.ofNat (bs.length * 0x20000000300000001)

/-- Two of the three tickets are drawn. The words before the last three are 0 and not accepted. -/
theorem lottery_fair_sampleTickets :
    (∃ result, findTicketIdxs countingHash 20 3 2 (newHash256PRNG countingHash [1, 2]) =
      .ok result ∧
      result.1 = [2, 0]) ∧
    ∃ winners, sampleTickets.fetchWinners [2, 0] = .ok winners ∧ winners = [40, 10] ∧
      ∀ (i : ℕ) (k : Hash), winners[i]? = some k →
        sampleTickets.has k ∧ [2, 0][i]? = some {j | sampleTickets.has j ∧ j < k}.ncard := by
  have hfair := lottery_fair countingHash
  have hdraws : draws countingHash 20 3 2 (newHash256PRNG countingHash [1, 2]) = .ok [2, 0] := by
    decide +kernel
  have hidxs : (findTicketIdxs countingHash 20 3 2 (newHash256PRNG countingHash [1, 2])).map (·.1) =
      .ok [2, 0] := by decide +kernel
  have hwinners : sampleTickets.fetchWinners [2, 0] = .ok [40, 10] := by decide +kernel
  constructor
  · obtain ⟨result, hresult⟩ :=
      (hfair.2.1 20 3 2 _ (by decide) (by decide)).2 2 (by decide) _ hdraws (by decide)
    rw [hresult] at hidxs
    exact ⟨result, hresult, Except.ok.inj hidxs⟩
  · have hlen : sampleTickets.len = 3 := by decide +kernel
    obtain ⟨winners, hok, -, -, hranks⟩ :=
      hfair.2.2 sampleTickets [2, 0] (by decide) (by decide) (by simp [hlen])
    exact ⟨winners, hok, Except.ok.inj (hok.symm.trans hwinners), hranks⟩

end Hcashd.Stake
