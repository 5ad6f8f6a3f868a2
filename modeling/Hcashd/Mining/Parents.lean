import Hcashd.Mempool.VoteIndex

/-!
# Ranking parents by their votes

`SortParentsByVotes` of `mining.go` keeps the blocks on which a majority of the votes agree, sorts
them by their number of votes, and then is to put the current top block first if it ties with the
leader. The number of votes that it compares is the length of what `VotesForBlocks` returns for the
top block alone, which is a list with one list of votes in it: the number is always one. So another
block that ties with the top block may stay in front of it (`exists_top_not_first`).

`sort.Sort` leaves blocks with equal numbers in any order. Whatever order it leaves, the blocks are
ranked as they should be, exactly if the top block is not among the leaders, or leads alone, or has
a single vote (`alwaysRanked_iff`).
-/

namespace Hcashd.Mining

open Lib Mempool List

/-- `blockWithNumVotes`: a candidate and its votes. -/
structure BlockWithNumVotes where
  hash : Hash
  numVotes : ℕ
  deriving DecidableEq

variable (ticketsPerBlock : ℕ) (mp : TxPool) (currentTopBlock : Hash) (blocks : List Hash)

/-- The loop of `SortParentsByVotes` over the blocks, which counts with 16 bits. -/
def filterByVotes : List BlockWithNumVotes :=
  (blocks.zip (mp.votesForBlocks blocks)).filterMap fun (hash, votes) =>
    let voteYea := votes.countP VoteTx.vote % 2^16
    let voteNay := votes.countP (fun vt => !vt.vote) % 2^16
    if ticketsPerBlock / 2 + 1 ≤ voteYea ∨ ticketsPerBlock / 2 + 1 ≤ voteNay then
      some ⟨hash, votes.length % 2^16⟩
    else none

/-- `SortParentsByVotes` from the sort on, which has left the blocks in the order `filtered`. -/
def currentTopFirst (filtered : List BlockWithNumVotes) : List Hash :=
  let sortedUsefulBlocks := filtered.map BlockWithNumVotes.hash
  match filtered with
  | [] => []
  | leader :: _ =>
    let numTopBlockVotes := (mp.votesForBlocks [currentTopBlock]).length % 2^16
    if leader.numVotes = numTopBlockVotes ∧ leader.hash ≠ currentTopBlock then
      match sortedUsefulBlocks.idxOf? currentTopBlock with
      | none => sortedUsefulBlocks
      | some pos => (sortedUsefulBlocks.set 0 currentTopBlock).set pos leader.hash
    else sortedUsefulBlocks

/-- How many votes the pool has for a block. -/
def numVotes (hash : Hash) : ℕ := (mp.votesForBlock hash).length

/-- A majority of the votes approves or disapproves a block. -/
def HasMajority (hash : Hash) : Prop :=
  ticketsPerBlock / 2 + 1 ≤ (mp.votesForBlock hash).countP VoteTx.vote ∨
    ticketsPerBlock / 2 + 1 ≤ (mp.votesForBlock hash).countP fun vt => !vt.vote

instance : DecidablePred (HasMajority ticketsPerBlock mp) :=
  fun _ => inferInstanceAs (Decidable (_ ∨ _))

/-- The blocks with a majority. -/
def eligible : List Hash := blocks.filter (HasMajority ticketsPerBlock mp)

/-- A block as it is sorted. -/
def counted (hash : Hash) : BlockWithNumVotes := ⟨hash, numVotes mp hash⟩

/-- How the blocks should be ranked. -/
structure Ranked (result : List Hash) : Prop where
  perm : result ~ eligible ticketsPerBlock mp blocks
  sorted : result.Pairwise fun a b => numVotes mp b ≤ numVotes mp a
  top_first : currentTopBlock ∈ result →
    (∀ b ∈ result, numVotes mp b ≤ numVotes mp currentTopBlock) →
    result.head? = some currentTopBlock

/-- The blocks are ranked whatever order `sort.Sort` leaves. -/
def AlwaysRanked : Prop :=
  ∀ filtered, filtered ~ filterByVotes ticketsPerBlock mp blocks →
    filtered.Pairwise (fun a b => b.numVotes ≤ a.numVotes) →
    Ranked ticketsPerBlock mp currentTopBlock blocks (currentTopFirst mp currentTopBlock filtered)

variable {ticketsPerBlock mp currentTopBlock blocks}

/-- A majority has votes. -/
theorem HasMajority.pos {hash : Hash} (h : HasMajority ticketsPerBlock mp hash) :
    0 < numVotes mp hash := by
  have hyea := countP_le_length (p := VoteTx.vote) (l := mp.votesForBlock hash)
  have hnay := countP_le_length (p := fun vt : VoteTx => !vt.vote) (l := mp.votesForBlock hash)
  unfold HasMajority at h
  unfold numVotes
  omega

/-- The loop keeps the blocks with enough votes. -/
theorem filterByVotes_eq (hcount : ∀ hash ∈ blocks, numVotes mp hash < 2^16) :
    filterByVotes ticketsPerBlock mp blocks =
      (eligible ticketsPerBlock mp blocks).map (counted mp) := by
  unfold filterByVotes TxPool.votesForBlocks eligible
  induction blocks with
  | nil => rfl
  | cons hash blocks ih =>
    have hlt := hcount hash mem_cons_self
    have hmod : ∀ p : VoteTx → Bool, (mp.votesForBlock hash).countP p % 2^16 =
        (mp.votesForBlock hash).countP p :=
      fun p => Nat.mod_eq_of_lt (countP_le_length.trans_lt hlt)
    have hcounted :
        (⟨hash, (mp.votesForBlock hash).length % 2^16⟩ : BlockWithNumVotes) = counted mp hash :=
      congrArg _ (Nat.mod_eq_of_lt hlt)
    rw [map_cons, zip_cons_cons, filterMap_cons, filter_cons, ih fun b hb =>
      hcount b (mem_cons_of_mem _ hb)]
    simp only [hmod, hcounted, decide_eq_true_eq]
    by_cases hmajority : HasMajority ticketsPerBlock mp hash
    · rw [if_pos (show _ ∨ _ from hmajority), if_pos hmajority, map_cons]
    · rw [if_neg (show ¬ (_ ∨ _) from hmajority), if_neg hmajority]

/-- What is sorted are the blocks with a majority. -/
theorem alwaysRanked_iff_forall_perm (hcount : ∀ hash ∈ blocks, numVotes mp hash < 2^16) :
    AlwaysRanked ticketsPerBlock mp currentTopBlock blocks ↔
      ∀ l, l ~ eligible ticketsPerBlock mp blocks →
      (l.Pairwise fun a b => numVotes mp b ≤ numVotes mp a) →
        Ranked ticketsPerBlock mp currentTopBlock blocks
          (currentTopFirst mp currentTopBlock (l.map (counted mp))) := by
  rw [AlwaysRanked, filterByVotes_eq hcount]
  refine ⟨fun h l hl hsorted =>
    h _ (hl.map _) (pairwise_map.2 hsorted), fun h filtered hfiltered hsorted => ?_⟩
  have hback : (filtered.map BlockWithNumVotes.hash).map (counted mp) = filtered := by
    rw [map_map, map_congr_left (g := id), map_id]
    intro b hb
    obtain ⟨hash, -, rfl⟩ := mem_map.1 (hfiltered.mem_iff.1 hb)
    rfl
  rw [← hback] at hsorted ⊢
  refine h _ ?_ (pairwise_map.1 hsorted)
  have hhash := hfiltered.map BlockWithNumVotes.hash
  rwa [map_map, show BlockWithNumVotes.hash ∘ counted mp = id from rfl, map_id] at hhash

/-- The current block moves to the front of its equals. -/
theorem currentTopFirst_cons (b : Hash) (l : List Hash) :
    currentTopFirst mp currentTopBlock ((b :: l).map (counted mp)) =
      if numVotes mp b = 1 ∧ b ≠ currentTopBlock then
        match (b :: l).idxOf? currentTopBlock with
        | none => b :: l
        | some pos => ((b :: l).set 0 currentTopBlock).set pos b
      else b :: l := by
  simp only [currentTopFirst, map_map, map_cons, show BlockWithNumVotes.hash ∘ counted mp =
    id from rfl, map_id]
  rfl

/-- A sorted permutation with the current block first. -/
theorem Ranked.of_perm {b : Hash} {l : List Hash} (hl : b :: l ~ eligible ticketsPerBlock mp blocks)
    (hsorted : (b :: l).Pairwise fun a b => numVotes mp b ≤ numVotes mp a)
    (htop : currentTopBlock ∈ b :: l → (∀ a ∈ b :: l, numVotes mp a ≤ numVotes mp currentTopBlock) →
      numVotes mp currentTopBlock = 1 ∨ ∀ a ∈ b :: l, numVotes mp a = numVotes mp currentTopBlock →
      a = currentTopBlock) :
    Ranked ticketsPerBlock mp currentTopBlock blocks
      (currentTopFirst mp currentTopBlock ((b :: l).map (counted mp))) := by
  have hle : ∀ a ∈ b :: l, numVotes mp a ≤ numVotes mp b :=
    forall_mem_cons.2 ⟨le_rfl, (pairwise_cons.1 hsorted).1⟩
  rw [currentTopFirst_cons]
  split_ifs with hswap
  · -- the leader has one vote, and so has every other block
    have hone : ∀ a ∈ b :: l, numVotes mp a = 1 := fun a ha =>
      le_antisymm (hswap.1 ▸ hle a ha) (of_decide_eq_true (mem_filter.1 (hl.mem_iff.1 ha)).2).pos
    cases hpos : (b :: l).idxOf? currentTopBlock with
    | none => exact ⟨hl, hsorted, fun hmem => absurd hmem (idxOf?_eq_none_iff.1 hpos)⟩
    | some pos =>
      obtain ⟨hlt, hget, -⟩ := idxOf?_eq_some_iff.1 hpos
      have hperm : ((b :: l).set 0 currentTopBlock).set pos b ~ b :: l :=
        hget ▸ @set_set_perm _ (b :: l) 0 pos (by simp) hlt
      refine ⟨hperm.trans hl, pairwise_of_forall_mem_list fun x hx y hy => ?_, fun _ _ => ?_⟩
      · rw [hone x (hperm.mem_iff.1 hx), hone y (hperm.mem_iff.1 hy)]
      · cases pos with
        | zero => exact absurd hget hswap.2
        | succ pos => rfl
  · refine ⟨hl, hsorted, fun hmem hmax => ?_⟩
    have htie := le_antisymm (hmax b mem_cons_self) (hle _ hmem)
    rcases htop hmem hmax with hone | hties
    · rw [not_and, not_not] at hswap
      rw [head?_cons, hswap (htie.trans hone)]
    · rw [head?_cons, hties b mem_cons_self htie]

/-- The blocks are ranked whatever order is left of equals, exactly if the current top block is not
among the leaders, or has one vote, or is the only leader. -/
theorem alwaysRanked_iff (hcount : ∀ hash ∈ blocks, numVotes mp hash < 2^16) :
    AlwaysRanked ticketsPerBlock mp currentTopBlock blocks ↔
      (currentTopBlock ∈ eligible ticketsPerBlock mp blocks →
        (∀ b ∈ eligible ticketsPerBlock mp blocks, numVotes mp b ≤ numVotes mp currentTopBlock) →
        numVotes mp currentTopBlock = 1 ∨ ∀ b ∈ eligible ticketsPerBlock mp blocks,
          numVotes mp b = numVotes mp currentTopBlock → b = currentTopBlock) := by
  rw [alwaysRanked_iff_forall_perm hcount]
  constructor
  · intro h hmem hmax
    by_contra hne
    simp only [not_or, not_forall] at hne
    obtain ⟨hone, b, hb, htie, hother⟩ := hne
    -- another leader may come first in the sort
    have hperm :
        b :: ((eligible ticketsPerBlock mp blocks).erase b).mergeSort
          (numVotes mp · ≥ numVotes mp ·) ~
        eligible ticketsPerBlock mp blocks :=
      ((mergeSort_perm _ _).cons b).trans (perm_cons_erase hb).symm
    have hranked := h _ hperm (pairwise_cons.2 ⟨fun a ha => ?_, ?_⟩)
    · rw [currentTopFirst_cons, if_neg fun hswap => hone (htie ▸ hswap.1)] at hranked
      have hfirst :=
        hranked.top_first (hperm.mem_iff.2 hmem) fun a ha => hmax a (hperm.mem_iff.1 ha)
      exact hother (Option.some.inj hfirst)
    · exact htie ▸ hmax a (hperm.mem_iff.1 (mem_cons_of_mem _ ha))
    · have hsorted := @pairwise_mergeSort _ (fun x y => decide (numVotes mp x ≥ numVotes mp y))
        (by simp; omega) (by simp; omega) ((eligible ticketsPerBlock mp blocks).erase b)
      simpa using hsorted
  · intro h l hl hsorted
    cases l with
    | nil => exact ⟨hl, .nil, fun hmem => nomatch hmem⟩
    | cons b l =>
      refine .of_perm hl hsorted ?_
      simpa only [hl.mem_iff] using h

/-- Two blocks with three votes each, and one with four. -/
def tiedPool : TxPool :=
  let votes : List VoteTx := [⟨11, 21, true⟩, ⟨12, 22, true⟩, ⟨13, 23, true⟩]
  { TxPool.empty with
    votes := ((Std.ExtTreeMap.empty.insert 1 votes).insert 2 votes).insert 3
      (⟨14, 24, true⟩ :: votes) }

/-- The current top block is the only leader of three blocks. -/
theorem alwaysRanked_tiedPool : AlwaysRanked 5 tiedPool 3 [1, 3, 2] ∧
    eligible 5 tiedPool [1, 3, 2] = [1, 3, 2] :=
  ⟨(alwaysRanked_iff (by decide +kernel)).2 fun _ _ => .inr (by decide +kernel), by decide +kernel⟩

/-- The current top block is left behind the other one. -/
theorem exists_top_not_first : ¬ AlwaysRanked 5 tiedPool 2 [1, 2] := by
  intro h
  have hranked := h [⟨1, 3⟩, ⟨2, 3⟩] (by decide +kernel) (by decide +kernel)
  exact absurd (hranked.top_first (by decide +kernel) (by decide +kernel)) (by decide +kernel)

end Hcashd.Mining
