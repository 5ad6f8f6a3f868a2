import Hcashd.Blockchain.ThresholdLaw

/-!
# Reported vote counts

`getVoteCounts` and `CountVoteVersion` report the votes of a window. They go back while key heights
are above `calcWantHeight`, which counts heights from one, while key heights are counted from zero:
the first key block of the window is left out.
-/

namespace Hcashd.Blockchain.Voting

open Lib Stake List

/-- `VoteCounts`: the votes of a window by choice. -/
structure VoteCounts where
  total : ℕ
  totalAbstain : ℕ
  voteChoices : List ℕ
  deriving DecidableEq

/-- `VoteIndex`, with no index for an invalid vote. -/
def voteIndex (vote : Vote) (bits : ℕ) : Option ℕ :=
  vote.choices.findIdx? fun choice => vote.mask &&& bits = choice.bits

/-- The step of `getVoteCounts` for a vote. -/
def countVote (d : ConsensusDeployment) (version : ℕ) (result : VoteCounts)
    (vote : VoteVersionTuple) : VoteCounts :=
  if vote.version ≠ version then result
  else match voteIndex d.vote vote.bits with
    | none => ⟨u32 (result.total + 1), u32 (result.totalAbstain + 1), result.voteChoices⟩
    | some k => ⟨u32 (result.total + 1),
        if (d.vote.choices[k]?.map Choice.isAbstain).getD false then u32 (result.totalAbstain + 1)
          else result.totalAbstain,
        result.voteChoices.modify k fun n => u32 (n + 1)⟩

/-- The step of `CountVoteVersion` for a vote. -/
def countVersion (version total : ℕ) (vote : VoteVersionTuple) : ℕ :=
  if vote.version ≠ version then total else u32 (total + 1)

variable {α : Type} (env : Env) (v : VotingParams) (index : Hash → Option Branch)

/-- The loop of both functions: the votes of key blocks above a key height. -/
def countVotes (count : α → VoteVersionTuple → α) (keyHeight : ℤ) : ℕ → Branch → α → Except Err α
  | _, [], _ => .error .panic
  | 0, _ :: _, _ => .error .outOfFuel
  | fuel + 1, b :: below, result =>
    if keyHeight < b.header.keyHeight then do
      let prev ← getPrevKeyNodeFromNode env index (b :: below)
      countVotes count keyHeight fuel prev ((voteBitsInBlock env b).foldl count result)
    else pure result

/-- The votes from the last key block of a node back. -/
def countFrom (count : α → VoteVersionTuple → α) (node : Branch) (result : α) : Except Err α := do
  let node ← toKeyNode env index node
  match node with
  | [] => .error .panic
  | b :: below =>
    let keyHeight := calcWantHeight env.params.stakeValidationHeight v.ruleChangeActivationInterval
      (b.header.keyHeight + 1)
    countVotes env index count keyHeight (b :: below).length (b :: below) result

/-- `getVoteCounts`: the votes on an agenda in the window of a node. -/
def getVoteCounts (node : Branch) (version : ℕ) (d : ConsensusDeployment) : Except Err VoteCounts :=
  countFrom env v index (countVote d version) node ⟨0, 0, replicate d.vote.choices.length 0⟩

/-- `CountVoteVersion`: the votes of a version in the window of a node. -/
def countVoteVersion (bestNode : Branch) (version : ℕ) : Except Err ℕ :=
  countFrom env v index (countVersion version) bestNode 0

/-- What `validateChoices` checks of the bits of the choices when the node starts. -/
structure ValidChoices (vote : Vote) : Prop where
  mask : vote.mask ≠ 0
  bits : ∀ (k : ℕ) (choice : Choice), vote.choices[k]? = some choice →
    vote.mask &&& choice.bits = choice.bits ∧ choice.bits >>> maskShift vote.mask = k

variable {env v index} {node : Branch} {version : ℕ} {d : ConsensusDeployment}

theorem testBit_maskShift {mask i : ℕ} (hi : i < maskShift mask) : mask.testBit i = false := by
  unfold maskShift at hi
  cases hfind : (range 16).find? mask.testBit with
  | none => simp [hfind] at hi
  | some s =>
    rw [hfind, Option.getD_some] at hi
    simpa using (find?_range_eq_some.1 hfind).2.2 i hi

/-- The bits that a mask selects are known from the number that is shifted down. -/
theorem eq_of_shiftRight_eq {mask x y : ℕ} (hx : mask &&& x = x) (hy : mask &&& y = y)
    (h : x >>> maskShift mask = y >>> maskShift mask) : x = y := by
  refine Nat.eq_of_testBit_eq fun i => ?_
  by_cases hi : i < maskShift mask
  · rw [← hx, ← hy, Nat.testBit_and, Nat.testBit_and, testBit_maskShift hi]
    rfl
  · have hbit := congrArg (Nat.testBit · (i - maskShift mask)) h
    simpa [Nat.testBit_shiftRight, Nat.add_sub_cancel' (not_lt.1 hi)] using hbit

/-- The choice that the vote bits stand for. -/
theorem ValidChoices.voteIndex_eq_some_iff {vote : Vote} (h : ValidChoices vote) (bits k : ℕ) :
    voteIndex vote bits = some k ↔ k < vote.choices.length ∧ choiceOf vote.mask bits = k := by
  have hself : vote.mask &&& (vote.mask &&& bits) = vote.mask &&& bits := by
    rw [← Nat.and_assoc, Nat.and_self]
  have hiff (j : ℕ) (choice : Choice) (hj : vote.choices[j]? = some choice) :
      vote.mask &&& bits = choice.bits ↔ choiceOf vote.mask bits = j := by
    obtain ⟨hmask, hshift⟩ := h.bits j choice hj
    refine ⟨fun heq => ?_, fun heq => eq_of_shiftRight_eq hself hmask ?_⟩
    · rw [choiceOf, heq, hshift]
    · rw [hshift, ← heq, choiceOf]
  rw [voteIndex, findIdx?_eq_some_iff_getElem]
  constructor
  · rintro ⟨hk, hmask, -⟩
    exact ⟨hk, (hiff k _ (getElem?_eq_getElem hk)).1 (by simpa using hmask)⟩
  · rintro ⟨hk, hchoice⟩
    refine ⟨hk, by simpa using (hiff k _ (getElem?_eq_getElem hk)).2 hchoice, fun j hj hmask => ?_⟩
    have := (hiff j _ (getElem?_eq_getElem (hj.trans hk))).1 (by simpa using hmask)
    omega

/-- The loop counts the votes of a version. -/
theorem foldl_countVersion (votes : List VoteVersionTuple) {total : ℕ}
    (hfew : total + votes.length < 2^32) :
    votes.foldl (countVersion version) total = total + votes.countP fun vote =>
      version = vote.version := by
  induction votes generalizing total with
  | nil => rfl
  | cons vote votes ih =>
    rw [length_cons] at hfew
    rw [foldl_cons, countP_cons, countVersion]
    by_cases hversion : vote.version = version
    · rw [if_neg (not_not.2 hversion), u32_of_lt (by omega), ih (by omega)]
      simp [hversion, Nat.add_assoc, Nat.add_comm]
    · rw [if_pos hversion, ih (by omega)]
      simp [Ne.symm hversion]

/-- Each choice of the version counts the votes that `Condition` counts for it. -/
theorem getElem?_foldl_countVote (hd : ValidChoices d.vote) (votes : List VoteVersionTuple)
    (result : VoteCounts) (hlength : result.voteChoices.length = d.vote.choices.length) (k : ℕ)
    (hfew : ∀ n ∈ result.voteChoices[k]?, n + votes.length < 2^32) :
    (votes.foldl (countVote d version) result).voteChoices[k]? =
      result.voteChoices[k]?.map (· + votesFor d version votes k) := by
  induction votes generalizing result with
  | nil => simp [votesFor]
  | cons vote votes ih =>
    have hless : ∀ n ∈ result.voteChoices[k]?, n + votes.length < 2^32 := fun n hn =>
      Nat.lt_of_succ_lt (hfew n hn)
    rw [foldl_cons, votesFor, countP_cons, ← votesFor]
    by_cases hversion : vote.version = version
    · have hindex := hd.voteIndex_eq_some_iff vote.bits
      rw [countVote, if_neg (not_not.2 hversion)]
      cases hvote : voteIndex d.vote vote.bits with
      | none =>
        rw [ih ⟨u32 (result.total + 1), u32 (result.totalAbstain + 1), result.voteChoices⟩
          hlength hless]
        cases hk : result.voteChoices[k]? with
        | none => rfl
        | some n =>
          have hlt := (List.getElem?_eq_some_iff.1 hk).1
          have hne : choiceOf d.vote.mask vote.bits ≠ k := fun heq => by
            simpa [hvote] using (hindex k).2 ⟨hlength ▸ hlt, heq⟩
          simp [hne]
      | some j =>
        have hmodify : (result.voteChoices.modify j fun n => u32 (n + 1))[k]? =
            result.voteChoices[k]?.map fun n => n + if j = k then 1 else 0 := by
          rw [getElem?_modify]
          cases hk : result.voteChoices[k]? with
          | none => rfl
          | some n =>
            have := hfew n hk
            rw [length_cons] at this
            by_cases hj : j = k
            · simp [hj, u32_of_lt (show n + 1 < 2^32 by omega)]
            · simp [hj]
        rw [ih ⟨_, _, _⟩ (by rw [length_modify, hlength]), hmodify, ((hindex j).1 hvote).2]
        · cases result.voteChoices[k]? <;> by_cases hj : j = k <;> simp [hj, hversion]
          omega
        · intro n hn
          rw [hmodify, Option.mem_map] at hn
          obtain ⟨m, hm, rfl⟩ := hn
          have := hfew m hm
          rw [length_cons] at this
          split_ifs <;> omega
    · rw [countVote, if_pos hversion, ih _ hlength hless]
      simp [Ne.symm hversion]

/-- The loop counts the votes of a window. -/
theorem KeyChained.countVotes (h : KeyChained env index node) (hhead : KeyHead env node)
    (count : α → VoteVersionTuple → α) {n fuel : ℕ} (hn : n < (keys env node).length)
    (hfuel : node.length ≤ fuel) (result : α) :
    countVotes env index count ((keys env node).length - 1 - n : ℤ) fuel node result =
      .ok ((votesOf env ((keys env node).take n)).foldl count result) := by
  induction n generalizing node fuel result with
  | zero =>
    obtain ⟨b, below, rfl⟩ := exists_cons_of_ne_nil (l := node) (by rintro rfl; simp at hn)
    obtain ⟨fuel, rfl⟩ := Nat.exists_eq_add_of_le' (Nat.lt_of_lt_of_le (Nat.zero_lt_succ _) hfuel)
    rw [Voting.countVotes, h.length_keys (keyHead_cons.1 hhead), if_neg (by push_cast; omega)]
    rfl
  | succ n ih =>
    obtain ⟨b, below, rfl⟩ := exists_cons_of_ne_nil (l := node) (by rintro rfl; simp at hn)
    obtain ⟨fuel, rfl⟩ := Nat.exists_eq_add_of_le' (Nat.lt_of_lt_of_le (Nat.zero_lt_succ _) hfuel)
    have hb := h.keyHeight b below (suffix_refl _)
    have hsuffix : lastKey env below <:+ below := lastKey_suffix below
    have hlength := hsuffix.length_le
    rw [keys_cons_of_key (keyHead_cons.1 hhead), length_cons] at hn ⊢
    have hkeys : ((keys env (lastKey env below)).length - 1 - n : ℤ) =
        (keys env below).length + 1 - 1 - (n + 1) := by
      rw [keys_lastKey]
      omega
    rw [Voting.countVotes, if_pos (by push_cast; omega), h.getPrevKeyNodeFromNode, ok_bind]
    push_cast
    rw [← hkeys,
      ih (h.of_suffix (hsuffix.trans (suffix_cons b below))) (keyHead_lastKey below)
        (by rw [keys_lastKey]; omega)
      (by rw [length_cons] at hfuel; omega), keys_lastKey, take_succ_cons, votesOf, votesOf,
      flatMap_cons, foldl_append]

/-- At the end of a window `calcWantHeight` is the key height of its first key block. -/
theorem calcWantHeight_of_endsWindow {svh w K : ℕ} (hw : 0 < w) (hle : w ≤ K + 1)
    (hmod : (K + 2) % w = svh % w) :
    calcWantHeight svh w (K + 1) = ((K + 1 : ℕ) - 1 - (w - 1 : ℕ) : ℤ) := by
  have hoff : svh % w ≤ K + 1 := (Nat.mod_lt svh hw).le.trans hle
  have hstart := windowStart_le svh w (K + 1)
  have hlast := lt_windowStart_add svh (K + 1) hw
  -- The window begins a whole number of windows before the next one.
  have hdvd : w ∣ K + 2 - windowStart svh w (K + 1) :=
    (Nat.modEq_iff_dvd' (by omega)).1 ((windowStart_mod hoff).trans hmod.symm)
  have hge := Nat.le_of_dvd (by omega) hdvd
  have hwant := calcWantHeight_eq svh w (K + 1) hoff
  push_cast at hwant
  rw [hwant]
  omega

variable {b : MsgBlock} {below : Branch}

/-- The count from the end of a window. -/
theorem KeyChained.countFrom (h : KeyChained env index (b :: below))
    (hends : EndsWindow env v (b :: below))
    (hpos : 0 < v.ruleChangeActivationInterval)
    (hle : v.ruleChangeActivationInterval ≤ b.header.keyHeight + 1)
    (count : α → VoteVersionTuple → α) (result : α) :
    countFrom env v index count (b :: below) result =
      .ok ((votesOf env ((keys env (b :: below)).take (v.ruleChangeActivationInterval - 1))).foldl
        count result) := by
  obtain ⟨hkey, hmod⟩ := hends b rfl
  have hlength := h.length_keys hkey
  have hcount := h.countVotes (keyHead_cons.2 hkey) count (n := v.ruleChangeActivationInterval - 1)
    (by omega) le_rfl result
  rw [Voting.countFrom, h.toNamed.toKeyNode, lastKey_cons_of_key hkey, ok_bind]
  dsimp only
  rw [calcWantHeight_of_endsWindow hpos hle hmod, ← hlength, hcount]

/-- The counts are those of the window exactly if its first key block has no vote of the version. -/
theorem voteCounts_iff (version : ℕ) (h : KeyChained env index (b :: below))
    (hends : EndsWindow env v (b :: below))
    (hpos : 0 < v.ruleChangeActivationInterval) (hsvh : 0 < env.params.stakeValidationHeight)
    (hlate : env.params.stakeValidationHeight + v.ruleChangeActivationInterval ≤
      b.header.keyHeight + 2)
    (hd : ValidChoices d.vote) (hfew : FewVotes env v (b :: below)) :
    ∃ tally totalVotes result total,
    countLoop env index d version v.ruleChangeActivationInterval (b :: below) ([], 0) =
        .ok (tally, totalVotes) ∧
      getVoteCounts env v index (b :: below) version d = .ok result ∧
      countVoteVersion env v index (b :: below) version = .ok total ∧
      (result.voteChoices = tally.map ThresholdConditionTally.count ∧
          total = (votesOf env (ruleWindow env v (b :: below))).countP
            (fun vote => version = vote.version) ↔
        ∀ first ∈ (ruleWindow env v (b :: below)).getLast?,
          ∀ vote ∈ voteBitsInBlock env first, vote.version ≠ version) := by
  have hkey := (hends b rfl).1
  have hlength := h.length_keys hkey
  have hcount :
      countLoop env index d version v.ruleChangeActivationInterval (b :: below) ([], 0) = .ok
      (windowTally env v version d (b :: below),
        nonAbstain (windowTally env v version d (b :: below))) :=
    h.toNamed.countLoop_nil hends.keyHead hd.mask hpos (by omega)
  refine ⟨_, _, _, _, hcount, h.countFrom hends hpos (by omega) _ _,
    h.countFrom hends hpos (by omega) _ _, ?_⟩
  -- The window is what the functions count, and one key block more.
  obtain ⟨n, hn⟩ := Nat.exists_eq_add_of_lt hpos
  have hlt : n < (keys env (b :: below)).length := by omega
  have hwindow : ruleWindow env v (b :: below) =
      (keys env (b :: below)).take (v.ruleChangeActivationInterval - 1) ++
        [(keys env (b :: below))[n]] := by
    rw [ruleWindow, hn, Nat.zero_add, Nat.add_sub_cancel, take_succ_eq_append_getElem hlt]
  have hlength :
      (votesOf env ((keys env (b :: below)).take (v.ruleChangeActivationInterval - 1))).length +
      (voteBitsInBlock env (keys env (b :: below))[n]).length < 2^32 := by
    have hshort := hfew.length_lt
    rw [hwindow] at hshort
    simpa [votesOf] using hshort
  have hfor (k : ℕ) := hfew.u32_votesFor d version k
  simp only [hwindow, votesOf, flatMap_append, flatMap_cons, flatMap_nil, append_nil] at hfor
  rw [windowTally, hwindow, getLast?_concat, foldl_countVersion _ (by omega), Nat.zero_add]
  simp only [votesOf, flatMap_append, flatMap_cons, flatMap_nil, append_nil,
    countP_append, Option.mem_def, Option.some.injEq, forall_eq']
  constructor
  · rintro ⟨-, htotal⟩ vote hvote hversion
    have hnone := countP_eq_zero.1 (Nat.left_eq_add.1 htotal) vote hvote
    simp [hversion] at hnone
  · intro hnone
    have hzero : (voteBitsInBlock env (keys env (b :: below))[n]).countP
        (fun vote => decide (version = vote.version)) = 0 :=
      countP_eq_zero.2 fun vote hvote => by simpa using (hnone vote hvote).symm
    refine ⟨ext_getElem? fun k => ?_, by rw [hzero, Nat.add_zero]⟩
    rw [getElem?_foldl_countVote hd _ _ (length_replicate ..)]
    · obtain hk | hk := lt_or_ge k d.vote.choices.length
      · simp only [tallyOf, hfor]
        simp [hk, votesFor]
        exact fun vote hvote hversion => absurd hversion.symm (hnone vote hvote)
      · simp [tallyOf, hk]
    · intro m hm
      obtain rfl := eq_of_mem_replicate (mem_of_getElem? hm)
      rw [Nat.zero_add]
      exact (Nat.le_add_right _ _).trans_lt hlength

/-- Three key blocks. The window that they end has a vote of version five and one of version
four. -/
def countedBranch : Branch :=
  [⟨sampleHeader 3 2 3 2 2, [], [voteTx 31 101 2 4]⟩,
    ⟨sampleHeader 2 1 2 1 1, [], [voteTx 21 100 1 5]⟩,
    ⟨sampleHeader 1 0 1 10000 0, [], []⟩, votingEnv.params.genesisBlock]

theorem keyChained_countedBranch :
    KeyChained votingEnv (branchIndex votingEnv countedBranch) countedBranch := by
  have hnodup : (countedBranch.map fun b => votingEnv.blockHash b.header).Nodup := by decide +kernel
  exact ⟨⟨by decide +kernel, by decide +kernel, by decide +kernel,
    branchIndex_indexed hnodup⟩, by decide +kernel⟩

theorem endsWindow_countedBranch : EndsWindow votingEnv votingParams countedBranch := by
  intro b hb
  obtain rfl := Option.some.inj hb
  decide +kernel

/-- The sample agenda has valid choices. -/
theorem validChoices_votingAgenda : ValidChoices votingAgenda.vote where
  mask := by decide
  bits := fun k choice hk => by
    have hlt : k < 3 := (List.getElem?_eq_some_iff.1 hk).1
    interval_cases k <;> obtain rfl := Option.some.inj hk <;> decide

/-- The votes of version four are counted. -/
theorem voteCounts_countedBranch : ∃ tally totalVotes result total,
    countLoop votingEnv (branchIndex votingEnv countedBranch) votingAgenda 4 2
      countedBranch ([], 0) = .ok (tally, totalVotes) ∧
    getVoteCounts votingEnv votingParams (branchIndex votingEnv countedBranch) countedBranch 4
      votingAgenda = .ok result ∧
    countVoteVersion votingEnv votingParams (branchIndex votingEnv countedBranch) countedBranch 4 =
      .ok total ∧
    result.voteChoices = tally.map ThresholdConditionTally.count ∧
    total = (votesOf votingEnv (ruleWindow votingEnv votingParams countedBranch)).countP
      (fun vote => 4 = vote.version) := by
  obtain ⟨tally, totalVotes, result, total, htally, hresult, htotal, hiff⟩ :=
    voteCounts_iff 4 keyChained_countedBranch endsWindow_countedBranch (by decide) (by decide)
      (by decide) validChoices_votingAgenda (by unfold FewVotes; decide +kernel)
  refine ⟨tally, totalVotes, result, total, htally, hresult, htotal, hiff.2 fun first hfirst => ?_⟩
  obtain rfl := Option.some.inj hfirst
  decide +kernel

/-- Those of version five are not. -/
theorem exists_votes_not_counted :
    KeyChained votingEnv (branchIndex votingEnv countedBranch) countedBranch ∧
    EndsWindow votingEnv votingParams countedBranch ∧
    (countLoop votingEnv (branchIndex votingEnv countedBranch) votingAgenda 5 2 countedBranch
      ([], 0)).map (fun r => r.1.map ThresholdConditionTally.count) = .ok [1, 0, 0] ∧
    getVoteCounts votingEnv votingParams (branchIndex votingEnv countedBranch) countedBranch 5
      votingAgenda = .ok ⟨0, 0, [0, 0, 0]⟩ ∧
    countVoteVersion votingEnv votingParams (branchIndex votingEnv countedBranch) countedBranch 5 =
      .ok 0 :=
  ⟨keyChained_countedBranch,
    endsWindow_countedBranch, by decide +kernel, by decide +kernel, by decide +kernel⟩

end Hcashd.Blockchain.Voting
