import Hcashd.Blockchain.StakeVersionLaw
import Hcashd.Blockchain.ThresholdState
import Hcashd.Blockchain.KeyWindows
import Hcashd.Lib.Median

/-!
# The law of the voting on agendas

The state of an agenda, as `thresholdState` computes it, is constant in a window of key blocks and
moves from one window to the next as the states are meant to: it starts at most once, is locked in
only by the votes of the whole window before, and is active or failed for good.

That the start time once reached stays reached is that the median time of a branch does not fall.
-/

namespace Hcashd.Blockchain.Voting

open Lib Stake List

variable {env : Env} {v : VotingParams} {index : Hash → Option Branch} {tree : Set Branch}
  {node anc : Branch} {version : ℕ} {d : ConsensusDeployment}

/-! ## Median times -/

/-- Each block of a branch passes the check of its time: it is after the median of those before
it. -/
def AfterMedian (node : Branch) : Prop :=
  ∀ b below, b :: below <:+ node → below ≠ [] →
    calcPastMedianTime (below.map MsgBlock.header) < b.header.timestamp

instance (node : Branch) : Decidable (AfterMedian node) :=
  inferInstanceAs (Decidable (∀ _ _, _ → _))

/-- The times of a branch are valid: each is after the median of those before it, as
`checkBlockHeaderContext` asks, and a number of seconds that the format has. -/
structure ValidTimes (node : Branch) : Prop where
  after : AfterMedian node
  range : ∀ b ∈ node, 0 ≤ b.header.timestamp ∧ b.header.timestamp < 2^64

/-- The times of the last eleven blocks. -/
def lastTimes (node : Branch) : List ℤ := (node.take 11).map fun b => b.header.timestamp

/-- The median of the last times. -/
theorem calcPastMedianTime_eq (node : Branch) :
    calcPastMedianTime (node.map MsgBlock.header) = middle (lastTimes node) 0 := by
  rw [calcPastMedianTime, middle, lastTimes, ← map_take, map_map,
    (perm_insertionSort _ _).length_eq]
  rfl

theorem lastTimes_ne_nil (hne : node ≠ []) : lastTimes node ≠ [] := by
  simpa [lastTimes] using hne

/-- Ancestors have valid times. -/
theorem ValidTimes.of_suffix (h : ValidTimes node) (hs : anc <:+ node) : ValidTimes anc where
  after := fun b below hb => h.after b below (hb.trans hs)
  range := fun b hb => h.range b (hs.subset hb)

/-- The median is a time of 64 bits. -/
theorem ValidTimes.median_range (h : ValidTimes node) (hne : node ≠ []) :
    0 ≤ middle (lastTimes node) 0 ∧ middle (lastTimes node) 0 < 2^64 := by
  obtain ⟨b, hb, htime⟩ := mem_map.1 (middle_mem (lastTimes_ne_nil hne) 0)
  rw [← htime]
  exact h.range b (mem_of_mem_take hb)

theorem AfterMedian.middle_le_cons {b : MsgBlock} {below : Branch} (h : AfterMedian (b :: below))
    (hne : below ≠ []) : middle (lastTimes below) 0 ≤ middle (lastTimes (b :: below)) 0 := by
  have hafter := h b below (suffix_refl _) hne
  rw [calcPastMedianTime_eq] at hafter
  have htimes : lastTimes (b :: below) = b.header.timestamp :: (lastTimes below).take 10 := by
    rw [lastTimes, lastTimes, take_succ_cons, map_cons, ← map_take, take_take]
    rfl
  rw [htimes]
  exact middle_le_middle_cons (lastTimes_ne_nil hne) hafter (by simp [lastTimes])

/-- The median of a branch is not below that of its ancestors. -/
theorem AfterMedian.middle_le (h : AfterMedian node) (hs : anc <:+ node) (hne : anc ≠ []) :
    middle (lastTimes anc) 0 ≤ middle (lastTimes node) 0 := by
  refine suffix_induction hs le_rfl fun b below hb hs ih =>
    ih.trans (AfterMedian.middle_le_cons ?_ (hs.ne_nil hne))
  exact fun b' below' hb' => h b' below' (hb'.trans hb)

/-- The median time does not fall along a branch, also where it has fewer than eleven blocks. -/
theorem calcPastMedianTime_le_of_suffix (h : AfterMedian node) (hs : anc <:+ node)
    (hne : anc ≠ []) :
    calcPastMedianTime (anc.map MsgBlock.header) ≤
      calcPastMedianTime (node.map MsgBlock.header) := by
  rw [calcPastMedianTime_eq, calcPastMedianTime_eq]
  exact h.middle_le hs hne

theorem ValidTimes.medianTimeOf_le (h : ValidTimes node) (hs : anc <:+ node) (hne : anc ≠ []) :
    medianTimeOf anc ≤ medianTimeOf node := by
  have hnode := hs.ne_nil hne
  obtain ⟨hlow, hhigh⟩ := (h.of_suffix hs).median_range hne
  obtain ⟨hlow', hhigh'⟩ := h.median_range hnode
  have hle := AfterMedian.middle_le h.after hs hne
  rw [medianTimeOf, medianTimeOf, unixTime, unixTime, calcPastMedianTime_eq, calcPastMedianTime_eq,
    Int.emod_eq_of_lt hlow hhigh, Int.emod_eq_of_lt hlow' hhigh']
  omega

/-! ## One step of the states -/

/-- The state of a window can be followed by that of the next one. -/
def Moves (t t' : ThresholdStateTuple) : Prop :=
  match t.state with
  | .defined => t'.state = .defined ∨ t'.state = .started ∨ t'.state = .failed
  | .started => t'.state = .started ∨ t'.state = .lockedIn ∨ t'.state = .failed
  | .lockedIn => t' = { t with state := .active }
  | .active | .failed => t' = t
  | .invalid => False

/-- A vote changes nothing or chooses what has the votes. -/
theorem decideVote_cases (counts : List ThresholdConditionTally) (totalVotes : ℕ)
    (t : ThresholdStateTuple) :
    decideVote v counts totalVotes t = t ∨ ∃ w k, counts[k]? = some w ∧
    v.ruleChangeActivationQuorum ≤
        u32 ((counts.filter fun w => !(w.isAbstain && !w.isNo)).map
          ThresholdConditionTally.count).sum ∧
      ruleChangeActivationThreshold v totalVotes ≤ w.count ∧
      (decideVote v counts totalVotes t = ⟨.failed, k⟩ ∨
        (w.isAbstain = false ∧ w.isNo = false ∧
          decideVote v counts totalVotes t = ⟨.lockedIn, k⟩)) := by
  rw [decideVote]
  split_ifs with hquorum
  · exact .inl rfl
  split
  · exact .inl rfl
  · rename_i w k hfind
    have hget : counts[k]? = some w := mem_zipIdx_iff_getElem?.1 (mem_of_find?_eq_some hfind)
    have hfound := find?_some hfind
    refine .inr ⟨w, k, hget, not_lt.1 hquorum, (of_decide_eq_true hfound).1, ?_⟩
    split_ifs with hchosen
    · rw [Bool.and_eq_true, Bool.not_eq_true', Bool.not_eq_true'] at hchosen
      exact .inr ⟨hchosen.1, hchosen.2, rfl⟩
    · exact .inl rfl

/-- One window makes one move. -/
theorem moves_stepState {t : ThresholdStateTuple} (hvalid : t.state ≠ .invalid) :
    Moves t (stepState env v version d node t) := by
  obtain ⟨state, choice⟩ := t
  cases state with
  | defined =>
    unfold Moves stepState
    dsimp only
    split_ifs <;> simp
  | started =>
    unfold Moves stepState
    dsimp only
    split_ifs
    · exact .inr (.inr rfl)
    · obtain hsame | ⟨w, k, -, -, -, hfailed | ⟨-, -, hlocked⟩⟩ := decideVote_cases
        (windowTally env v version d node) (nonAbstain (windowTally env v version d node))
        (⟨.started, choice⟩ : ThresholdStateTuple) (v := v)
      · rw [hsame]
        exact .inl rfl
      · rw [hfailed]
        exact .inr (.inr rfl)
      · rw [hlocked]
        exact .inr (.inl rfl)
  | lockedIn | active | failed => rfl
  | invalid => exact absurd rfl hvalid

/-- No move leads to the invalid state. -/
theorem Moves.ne_invalid {t t' : ThresholdStateTuple} (h : Moves t t') : t'.state ≠ .invalid := by
  obtain ⟨state, choice⟩ := t
  cases state with
  | defined | started => obtain h | h | h := h <;> simp [h]
  | lockedIn | active | failed => simp [show t' = _ from h]
  | invalid => exact h.elim

theorem endState_ne_invalid (node : Branch) : (endState env v version d node).state ≠ .invalid := by
  rw [endState]
  generalize node.length = fuel
  induction fuel generalizing node with
  | zero => cases node <;> simp [stateAfter]
  | succ fuel ih =>
    cases node with
    | nil => simp [stateAfter]
    | cons b below =>
      rw [stateAfter]
      split_ifs
      · decide
      · exact (moves_stepState (ih _)).ne_invalid

/-! ## From window to window -/

/-- The number of the window of the block after a node. -/
def windowOf (env : Env) (v : VotingParams) (node : Branch) : ℕ :=
  windowIndex env.params.stakeValidationHeight v.ruleChangeActivationInterval (nextHeight env node)

/-- The key blocks of the window before that of the block after a node. -/
def precedingWindow (env : Env) (v : VotingParams) (node : Branch) : List MsgBlock :=
  (keys env node).filter fun b => windowIndex env.params.stakeValidationHeight
    v.ruleChangeActivationInterval (b.header.keyHeight + 1) + 1 = windowOf env v node

/-- The block after a node is in a window that can be voted for. -/
def InVoting (env : Env) (v : VotingParams) (node : Branch) : Prop :=
  env.params.stakeValidationHeight + v.ruleChangeActivationInterval ≤ nextHeight env node

/-- Voting does not end. -/
theorem InVoting.mono (hin : InVoting env v anc) (hs : anc <:+ node) : InVoting env v node :=
  hin.trans (Nat.add_le_add_right (length_keys_le_of_suffix hs) 1)

section Steps

variable (hv : SoundAgendas env v) (h : KeyChained env index node)

include hv h

theorem KeyChained.exists_windowEnd_of_inVoting (hin : InVoting env v node) :
    ∃ k rest, windowEnd env v.ruleChangeActivationInterval node = k :: rest ∧ isKey env k = true ∧
      k.header.keyHeight + 2 =
        windowStart env.params.stakeValidationHeight v.ruleChangeActivationInterval
        (nextHeight env node) := by
  have hkeys : keys env node ≠ [] := by
    intro hnil
    have htwo := hv.two_le
    rw [InVoting, nextHeight, hnil, length_nil] at hin
    omega
  obtain ⟨b, below, hlast⟩ := exists_lastKey hkeys
  rw [InVoting, h.nextHeight_eq hlast] at hin
  obtain ⟨k, rest, hend, hk⟩ := h.exists_windowEnd hv.rule_pos hv.two_le hlast hin
  rw [h.nextHeight_eq hlast]
  exact ⟨k, rest, hend, keyHead_cons.1 (hend ▸ keyHead_windowEnd _ node), hk⟩

/-- Before the first window an agenda is defined only. -/
theorem KeyChained.agendaState_of_not_inVoting (hin : ¬ InVoting env v node) :
    agendaState env v version d node = ⟨.defined, invalidChoice⟩ := by
  rw [agendaState, h.windowEnd_eq hv.two_le, if_pos (not_le.1 hin)]
  rfl

/-- The window that is counted is the one before. -/
theorem KeyChained.ruleWindow_windowEnd (hin : InVoting env v node) :
    ruleWindow env v (windowEnd env v.ruleChangeActivationInterval node) =
      precedingWindow env v node := by
  obtain ⟨k, rest, hend, hkey, hk⟩ := h.exists_windowEnd_of_inVoting hv hin
  have hE : KeyChained env index (k :: rest) := hend ▸ h.of_suffix (windowEnd_suffix _ node)
  have hmodle := Nat.mod_le env.params.stakeValidationHeight v.ruleChangeActivationInterval
  rw [InVoting] at hin
  rw [ruleWindow, hend, hE.take_keys_eq, hE.length_keys hkey, ← hend, h.windowEnd_eq hv.two_le,
    if_neg (not_lt.2 hin), h.keys_atKeyHeight_eq, filter_filter, precedingWindow]
  refine filter_congr fun b _ => ?_
  rw [← Bool.decide_and, windowOf, decide_eq_decide,
    windowIndex_succ_eq_iff hv.rule_pos (by omega), ← hk]
  omega

/-- It is full. -/
theorem KeyChained.length_precedingWindow (hin : InVoting env v node) :
    (precedingWindow env v node).length = v.ruleChangeActivationInterval := by
  obtain ⟨k, rest, hend, hkey, hk⟩ := h.exists_windowEnd_of_inVoting hv hin
  have hE : KeyChained env index (k :: rest) := hend ▸ h.of_suffix (windowEnd_suffix _ node)
  have hstart := le_windowStart hv.rule_pos hin
  have htwo := hv.two_le
  rw [← h.ruleWindow_windowEnd hv hin, ruleWindow, hend, length_take, hE.length_keys hkey]
  omega

variable (hs : anc <:+ node)

include hs

/-- The window before the next one is this one. -/
theorem KeyChained.windowBefore_windowEnd (hin : InVoting env v anc)
    (hnext : windowOf env v node = windowOf env v anc + 1) :
    InVoting env v node ∧ windowBefore env v (windowEnd env v.ruleChangeActivationInterval node) =
      windowEnd env v.ruleChangeActivationInterval anc := by
  have hanc := h.of_suffix hs
  have hmodle := Nat.mod_le env.params.stakeValidationHeight v.ruleChangeActivationInterval
  have hin' := hin.mono hs
  have hsuffix : (keys env anc).length ≤ (keys env node).length := length_keys_le_of_suffix hs
  have hle : nextHeight env anc ≤ nextHeight env node := Nat.add_le_add_right hsuffix 1
  obtain ⟨k, rest, hend, hkey, hk⟩ := h.exists_windowEnd_of_inVoting hv hin'
  have hfirst := le_windowStart hv.rule_pos hin
  have hstartle := windowStart_le env.params.stakeValidationHeight v.ruleChangeActivationInterval
    (nextHeight env anc)
  have htwo := hv.two_le
  rw [InVoting] at hin
  have hstart := windowStart_eq_add hv.rule_pos (by omega) (by omega) hnext
  refine ⟨hin', ?_⟩
  have hback : ((k.header.keyHeight : ℤ) - v.ruleChangeActivationInterval) =
      (windowStart env.params.stakeValidationHeight v.ruleChangeActivationInterval
        (nextHeight env anc) : ℤ) - 2 := by
    omega
  have hlen : nextHeight env anc = (keys env anc).length + 1 := rfl
  rw [hend, windowBefore, keyHeightOf_cons, if_neg (by omega), hback, ← hend,
    h.windowEnd_eq hv.two_le, if_neg (not_lt.2 hin'), atKeyHeight_atKeyHeight (by omega),
    hanc.windowEnd_eq hv.two_le, if_neg (not_lt.2 hin),
    h.atKeyHeight_of_suffix hs (by omega)]

end Steps

/-! ## Before there are votes -/

theorem keyHeightOf_atKeyHeight_le (n : ℕ) (node : Branch) :
    keyHeightOf (atKeyHeight env n node) ≤ n := by
  induction node with
  | nil => exact Nat.zero_le n
  | cons b below ih =>
    by_cases hgo : isKey env b = false ∨ (n : ℤ) < b.header.keyHeight
    · rw [atKeyHeight_cons_of_not hgo]
      exact ih
    · obtain ⟨hkey, hle⟩ := not_or.1 hgo
      rw [atKeyHeight_cons_of_le (by simpa using hkey) (not_lt.1 hle), keyHeightOf_cons]
      exact_mod_cast not_lt.1 hle

theorem keyHeightOf_windowBefore_le (node : Branch) :
    keyHeightOf (windowBefore env v node) ≤ keyHeightOf node := by
  rw [windowBefore]
  split_ifs with hlt
  · exact Nat.zero_le _
  · rw [← Nat.cast_sub (not_lt.1 hlt)]
    exact (keyHeightOf_atKeyHeight_le _ node).trans (Nat.sub_le _ _)

theorem stakeVersion_of_early (hv : SoundAgendas env v) (hhead : KeyHead env node)
    (hearly : keyHeightOf node + 2 ≤ env.params.stakeValidationHeight) :
    stakeVersion env v node = 0 := by
  have hpos := hv.interval_pos
  have hprior : priorNode env v node = [] := by
    cases node with
    | nil => rfl
    | cons b below =>
      rw [keyHeightOf_cons] at hearly
      exact windowEnd_of_lt (lastKey_cons_of_key (keyHead_cons.1 hhead)) (by omega)
  have hnone : votersVersionBefore env v node = (0, []) := by
    rw [votersVersionBefore, hprior]
    rfl
  rw [stakeVersion, hnone]
  split_ifs <;> simp_all

/-- Before voting starts an agenda is defined only. -/
theorem endState_of_early (hv : SoundAgendas env v) (hversion : 0 < version)
    (hhead : KeyHead env node) (hearly : keyHeightOf node + 2 ≤ env.params.stakeValidationHeight) :
    (endState env v version d node).state = .defined ∨ (endState env v version d node).state =
      .failed := by
  rw [endState]
  generalize node.length = fuel
  induction fuel generalizing node with
  | zero => cases node <;> exact .inl rfl
  | succ fuel ih =>
    cases node with
    | nil => exact .inl rfl
    | cons b below =>
      have hbefore : keyHeightOf (windowBefore env v (b :: below)) ≤ keyHeightOf (b :: below) :=
        keyHeightOf_windowBefore_le _
      have hzero := stakeVersion_of_early hv hhead hearly
      rw [stateAfter]
      split_ifs
      · exact .inl rfl
      · obtain hstate | hstate := ih (keyHead_windowBefore (v := v) (b :: below)) (by omega)
        · rw [stepState, hstate]
          split_ifs <;> first | exact .inl hstate | exact .inr rfl | omega
        · rw [stepState, hstate]
          exact .inr hstate

/-! ## The law -/

/-- The agendas are as the network parameters are checked to be: their versions are not zero, and no
choice is both to abstain and to refuse. -/
structure ValidAgendas (env : Env) (v : VotingParams) : Prop extends SoundAgendas env v where
  version_pos : ∀ version, v.deployments version ≠ [] → 0 < version
  choices : ∀ version, ∀ d ∈ v.deployments version, ∀ choice ∈ d.vote.choices,
    ¬(choice.isAbstain = true ∧ choice.isNo = true)

/-- The law of the states of an agenda on the nodes of a tree. -/
structure VotingLaw (env : Env) (v : VotingParams) (version : ℕ) (d : ConsensusDeployment)
    (tree : Set Branch) (state : Branch → ThresholdStateTuple) : Prop where
  -- In one window of a branch the state is the same.
  constant : ∀ node ∈ tree, ∀ anc, anc ≠ [] → anc <:+ node →
    windowOf env v anc = windowOf env v node →
    state anc = state node
  -- From one window to the next it moves as it may, and keeps the choice that was locked in.
  moves : ∀ node ∈ tree, ∀ anc, anc ≠ [] → anc <:+ node →
    windowOf env v node = windowOf env v anc + 1 →
    Moves (state anc) (state node)
  -- A choice is locked in by the votes of the whole window before.
  lockedIn : ∀ node ∈ tree, (state node).state = .lockedIn →
    (precedingWindow env v node).length = v.ruleChangeActivationInterval ∧
    v.ruleChangeActivationQuorum ≤ votesCast d version (votesOf env (precedingWindow env v node)) ∧
    ∃ choice, d.vote.choices[(state node).choice]? = some choice ∧ choice.isAbstain = false ∧
      choice.isNo = false ∧
      votesCast d version (votesOf env (precedingWindow env v node)) *
        v.ruleChangeActivationMultiplier /
          v.ruleChangeActivationDivisor ≤
        votesFor d version (votesOf env (precedingWindow env v node)) (state node).choice

/-- The votes of the window that a node ends can be counted in 32 bits, also when they are
multiplied by the share that is asked for. -/
def FewVotes (env : Env) (v : VotingParams) (node : Branch) : Prop :=
  (votesOf env (ruleWindow env v node)).length * max 1 v.ruleChangeActivationMultiplier < 2^32

/-- No more votes count than were cast. -/
theorem votesCast_le_length (d : ConsensusDeployment) (version : ℕ)
    (votes : List VoteVersionTuple) :
    votesCast d version votes ≤ votes.length := by
  have hnodup : ((d.vote.choices.zipIdx.filter fun p => !p.1.isAbstain).map Prod.snd).Nodup :=
    (filter_sublist.map _).nodup (nodup_zipIdx_map_snd _)
  have hsum : votesCast d version votes =
      ((d.vote.choices.zipIdx.filter fun p => !p.1.isAbstain).map
      Prod.snd).toFinset.sum (votesFor d version votes) := by
    rw [sum_toFinset _ hnodup, map_map]
    rfl
  rw [hsum]
  clear hsum
  induction votes with
  | nil => simp [votesFor]
  | cons vote votes ih =>
    have hstep : votesFor d version (vote :: votes) = fun k => votesFor d version votes k +
        if version = vote.version ∧ choiceOf d.vote.mask vote.bits = k then 1 else 0 := by
      funext k
      simp [votesFor, countP_cons]
    rw [hstep, Finset.sum_add_distrib]
    refine Nat.add_le_add ih ?_
    by_cases hversion : version = vote.version
    · simp only [hversion, true_and, Finset.sum_ite_eq]
      split_ifs <;> omega
    · simp [hversion]

theorem FewVotes.length_lt (h : FewVotes env v node) :
    (votesOf env (ruleWindow env v node)).length < 2^32 := by
  have hpos : 0 < max 1 v.ruleChangeActivationMultiplier := lt_max_of_lt_left Nat.one_pos
  exact (Nat.le_mul_of_pos_right _ hpos).trans_lt h

/-- The counts of few votes do not wrap. -/
theorem FewVotes.u32_votesFor (h : FewVotes env v node) (d : ConsensusDeployment) (version k : ℕ) :
    u32 (votesFor d version (votesOf env (ruleWindow env v node)) k) =
      votesFor d version (votesOf env (ruleWindow env v node)) k :=
  u32_of_lt (countP_le_length.trans_lt h.length_lt)

theorem FewVotes.nonAbstain_windowTally (h : FewVotes env v node) (d : ConsensusDeployment)
    (version : ℕ) :
    nonAbstain (windowTally env v version d node) =
        votesCast d version (votesOf env (ruleWindow env v node)) ∧
      ruleChangeActivationThreshold v (nonAbstain (windowTally env v version d node)) =
        votesCast d version (votesOf env (ruleWindow env v node)) *
          v.ruleChangeActivationMultiplier / v.ruleChangeActivationDivisor := by
  have hle := votesCast_le_length d version (votesOf env (ruleWindow env v node))
  have hcast : nonAbstain (windowTally env v version d node) =
      votesCast d version (votesOf env (ruleWindow env v node)) := by
    rw [windowTally, nonAbstain_tallyOf, u32_of_lt (hle.trans_lt h.length_lt)]
  refine ⟨hcast, ?_⟩
  rw [hcast, ruleChangeActivationThreshold, u32_of_lt]
  exact (Nat.mul_le_mul hle (le_max_right 1 _)).trans_lt h

theorem sum_filter_tallyOf (hchoices : ∀ choice ∈ d.vote.choices,
    ¬(choice.isAbstain = true ∧ choice.isNo = true)) (votes : List VoteVersionTuple) :
    u32 (((tallyOf d version votes).filter fun w => !(w.isAbstain && !w.isNo)).map
      ThresholdConditionTally.count).sum = nonAbstain (tallyOf d version votes) := by
  rw [nonAbstain]
  congr 3
  refine filter_congr fun w hw => ?_
  obtain ⟨⟨choice, k⟩, hmem, rfl⟩ := mem_map.1 hw
  have hnot := hchoices choice (fst_mem_of_mem_zipIdx hmem)
  cases habstain : choice.isAbstain <;> cases hno : choice.isNo <;> simp_all

/-- A lock-in has the quorum and the majority. -/
theorem lockedIn_of_stepState (hchoices : ∀ choice ∈ d.vote.choices,
    ¬(choice.isAbstain = true ∧ choice.isNo = true)) (hfew : FewVotes env v node) {t :
    ThresholdStateTuple} (hlocked : (stepState env v version d node t).state = .lockedIn) :
    v.ruleChangeActivationQuorum ≤ votesCast d version (votesOf env (ruleWindow env v node)) ∧
    ∃ choice, d.vote.choices[(stepState env v version d node t).choice]? = some choice ∧
      choice.isAbstain = false ∧ choice.isNo = false ∧
      votesCast d version (votesOf env (ruleWindow env v node)) * v.ruleChangeActivationMultiplier /
          v.ruleChangeActivationDivisor ≤
        votesFor d version (votesOf env (ruleWindow env v node))
        (stepState env v version d node t).choice := by
  obtain ⟨hcast, hshare⟩ := hfew.nonAbstain_windowTally d version
  obtain ⟨state, choice⟩ := t
  cases state with
  | defined =>
    rw [stepState] at hlocked
    dsimp only at hlocked
    split_ifs at hlocked
  | started =>
    rw [stepState] at hlocked ⊢
    dsimp only at hlocked ⊢
    split_ifs at hlocked ⊢
    obtain hsame | ⟨w, k, hget, hquorum, hthreshold, hfailed | ⟨habstain, hno, hdecided⟩⟩ :=
      decideVote_cases (windowTally env v version d node)
        (nonAbstain (windowTally env v version d node))
          (⟨.started, choice⟩ : ThresholdStateTuple) (v := v)
    · rw [hsame] at hlocked
      cases hlocked
    · rw [hfailed] at hlocked
      cases hlocked
    · rw [hdecided]
      rw [windowTally, sum_filter_tallyOf hchoices, ← windowTally, hcast] at hquorum
      rw [hshare] at hthreshold
      rw [windowTally, tallyOf, getElem?_map, getElem?_zipIdx, Nat.zero_add] at hget
      cases hchoice : d.vote.choices[k]? with
      | none => simp [hchoice] at hget
      | some c =>
        simp only [hchoice, Option.map_some, Option.some.injEq] at hget
        subst hget
        exact ⟨hquorum, c, rfl, habstain, hno, hthreshold.trans_eq (hfew.u32_votesFor d version k)⟩
  | lockedIn | active | failed | invalid => cases hlocked

theorem agendaState_of_windowEnd (version : ℕ) (d : ConsensusDeployment) (hv : SoundAgendas env v)
    {k : MsgBlock} {rest : Branch}
    (hend : windowEnd env v.ruleChangeActivationInterval node = k :: rest) :
    agendaState env v version d node = if medianTimeOf (k :: rest) < d.startTime
      then ⟨.defined, invalidChoice⟩ else stepState env v version d (k :: rest)
      (endState env v version d (windowBefore env v (k :: rest))) := by
  rw [agendaState, hend, endState_cons hv.rule_pos]

theorem ValidTimes.endState_of_suffix (hv : SoundAgendas env v) (htimes : ValidTimes node)
    (hs : anc <:+ node) (hearly : medianTimeOf node < d.startTime) :
    endState env v version d anc = ⟨.defined, invalidChoice⟩ := by
  cases anc with
  | nil => rfl
  | cons b below =>
    have hle := htimes.medianTimeOf_le hs (cons_ne_nil _ _)
    rw [endState_cons hv.rule_pos, if_pos (by omega)]

/-- From one window to the next an agenda makes one move. -/
theorem KeyChained.moves_agendaState (h : KeyChained env index node) (hv : SoundAgendas env v)
    (htimes : ValidTimes node) (hversion : 0 < version) (hs : anc <:+ node)
    (hnext : windowOf env v node = windowOf env v anc + 1) :
    Moves (agendaState env v version d anc) (agendaState env v version d node) := by
  have hanc := h.of_suffix hs
  by_cases hin : InVoting env v node
  · obtain ⟨k, rest, hend, hkey, hk⟩ := h.exists_windowEnd_of_inVoting hv hin
    have hE : ValidTimes (k :: rest) := htimes.of_suffix (hend ▸ windowEnd_suffix _ node)
    have hbefore : windowBefore env v (k :: rest) <:+ k :: rest :=
      (windowBefore_suffix hv.rule_pos k rest).trans (suffix_cons k rest)
    rw [agendaState_of_windowEnd version d hv hend]
    by_cases hin' : InVoting env v anc
    · obtain ⟨-, hback⟩ := h.windowBefore_windowEnd hv hs hin' hnext
      rw [agendaState, ← hback, hend]
      split_ifs with hearly
      · rw [hE.endState_of_suffix hv hbefore hearly]
        exact .inl rfl
      · exact moves_stepState (endState_ne_invalid _)
    · -- The first window that can be voted for: what is before it can only have failed.
      have hstart := windowStart_eq_first hv.rule_pos (not_le.1 hin') hin hnext
      have htwo := hv.two_le
      have hfirst :
          keyHeightOf (windowBefore env v (k :: rest)) + 2 ≤ env.params.stakeValidationHeight := by
        rw [windowBefore, keyHeightOf_cons, if_neg (by omega), ← Nat.cast_sub (by omega)]
        refine (Nat.add_le_add_right (keyHeightOf_atKeyHeight_le _ _) 2).trans ?_
        omega
      rw [hanc.agendaState_of_not_inVoting hv hin']
      split_ifs
      · exact .inl rfl
      · obtain hstate | hstate :=
          endState_of_early (d := d) hv hversion (keyHead_windowBefore (k :: rest)) hfirst
        · have hmoves : Moves (endState env v version d (windowBefore env v (k :: rest)))
              (stepState env v version d (k :: rest)
                (endState env v version d (windowBefore env v (k :: rest)))) :=
            moves_stepState (endState_ne_invalid _)
          rw [Moves, hstate] at hmoves
          exact hmoves
        · rw [stepState, hstate]
          exact .inr (.inr hstate)
  · rw [h.agendaState_of_not_inVoting hv hin, hanc.agendaState_of_not_inVoting hv fun hin' =>
      hin (hin'.mono hs)]
    exact .inl rfl

/-- The law for a tree of valid blocks. -/
theorem BlockTree.votingLaw (ht : BlockTree env index tree)
    (htimes : ∀ node ∈ tree, ValidTimes node)
    (hfew : ∀ node ∈ tree, FewVotes env v node) (hv : ValidAgendas env v)
    (hd : d ∈ v.deployments version) :
    VotingLaw env v version d tree (agendaState env v version d) where
  constant := fun node hnode anc _ hs hsame => by
    rw [agendaState, agendaState,
      (ht.chained node hnode).windowEnd_eq_of_windowIndex_eq hv.two_le hv.rule_pos hs hsame]
  moves := fun node hnode anc _ hs hnext =>
    (ht.chained node hnode).moves_agendaState hv.toSoundAgendas (htimes node hnode)
      (hv.version_pos version (ne_nil_of_mem hd)) hs hnext
  lockedIn := by
    intro node hnode hlocked
    have hchained := ht.chained node hnode
    have hin : InVoting env v node := by
      by_contra hin
      rw [hchained.agendaState_of_not_inVoting hv.toSoundAgendas hin] at hlocked
      cases hlocked
    obtain ⟨k, rest, hend, -, -⟩ := hchained.exists_windowEnd_of_inVoting hv.toSoundAgendas hin
    have hstate := agendaState_of_windowEnd version d hv.toSoundAgendas hend
    have hwindow := hchained.ruleWindow_windowEnd hv.toSoundAgendas hin
    refine ⟨hchained.length_precedingWindow hv.toSoundAgendas hin, ?_⟩
    by_cases hearly : medianTimeOf (k :: rest) < d.startTime
    · rw [hstate, if_pos hearly] at hlocked
      cases hlocked
    · have hmem : k :: rest ∈ tree :=
        ht.suffix node hnode _ (hend ▸ windowEnd_suffix _ node) (cons_ne_nil _ _)
      rw [if_neg hearly] at hstate
      rw [hstate] at hlocked ⊢
      rw [← hwindow, hend]
      exact lockedIn_of_stepState (hv.choices version d hd) (hfew _ hmem) hlocked

/-- Whatever calls were made before, a call for a node finds the state of that node. -/
def FindsStates (env : Env) (v : VotingParams) (index : Hash → Option Branch) (version : ℕ)
    (id : String) (state : Branch → ThresholdStateTuple) : Prop :=
  ∀ c, AfterCalls env v index c → ∀ hash node, index hash = some node →
    ∃ c', thresholdStateCall env v index hash version id c = .ok (state node, c')

/-- The state that the calls find is that of the first call. -/
theorem FindsStates.eq_of_empty {id : String} {state : Branch → ThresholdStateTuple}
    {t : ThresholdStateTuple} (h : FindsStates env v index version id state) (hash : Hash)
    (hnode : index hash = some node)
    (ht : (thresholdStateCall env v index hash version id Caches.empty).map Prod.fst = .ok t) :
    state node = t := by
  obtain ⟨c, hc⟩ := h _ .new hash node hnode
  rw [hc] at ht
  exact Except.ok.inj ht

/-- `ThresholdState` on a tree whose blocks name the key blocks before them: whatever calls were
made before, a call for a node finds the same state, and these states follow the law. -/
theorem thresholdStateCall_votingLaw (ht : BlockTree env index tree)
    (hindex : ∀ hash node, index hash = some node → node ∈ tree ∧ node ≠ [])
    (htimes : ∀ node ∈ tree, ValidTimes node) (hfew : ∀ node ∈ tree, FewVotes env v node)
    (hv : ValidAgendas env v) {id : String} {k : ℕ}
    (hfind : findDeployment v version id = some (d, k)) :
    ∃ state : Branch → ThresholdStateTuple, FindsStates env v index version id state ∧
      VotingLaw env v version d tree state := by
  refine ⟨agendaState env v version d, fun c hc hash node hnode => ?_,
    ht.votingLaw htimes hfew hv (fst_mem_of_mem_zipIdx (mem_of_find?_eq_some hfind))⟩
  obtain ⟨hmem, hne⟩ := hindex hash node hnode
  obtain ⟨c', hstate, -⟩ := ht.deploymentState hv.toSoundAgendas hmem hne hfind
    (ht.afterCalls hv.toSoundAgendas hindex hc)
  refine ⟨c', ?_⟩
  rw [thresholdStateCall, hnode]
  exact hstate

/-! ## An agenda that becomes active -/

/-- An agenda with a choice to abstain, one to refuse and one to accept. -/
def votingAgenda : ConsensusDeployment :=
  ⟨⟨"agenda", 6, [⟨0, true, false⟩, ⟨2, false, true⟩, ⟨4, false, false⟩]⟩, 0, 1000⟩

/-- A network with this agenda, and windows of two key blocks. -/
def votingParams : VotingParams where
  ticketPoolSize := 10
  stakeDiffWindowSize := 2
  stakeVersionInterval := 2
  stakeMajorityMultiplier := 3
  stakeMajorityDivisor := 4
  blockUpgradeNumToCheck := 2
  blockRejectNumRequired := 2
  ruleChangeActivationQuorum := 1
  ruleChangeActivationMultiplier := 3
  ruleChangeActivationDivisor := 4
  ruleChangeActivationInterval := 2
  deployments := fun version => if version = 1 then [votingAgenda] else []
  mainNet := false

/-- The network on which votes begin at key height two. -/
def votingEnv : Env := sampleEnv { sampleParams with
  ticketsPerBlock := 1
  stakeValidationHeight := 2 }

/-- A vote of version one for the last choice. -/
def yesVote (id : ℕ) : MsgTx :=
  { voteTx id 100 1 1 with
    txOut := (voteTx id 100 1 1).txOut.set 1 ⟨0, 0, [0x6a, 0x06] ++ leBytes 2 5 ++ leBytes 4 1⟩ }

/-- Key blocks of version three, each with such a vote from the second one on. -/
def votedBranch : ℕ → Branch
  | 0 => [votingEnv.params.genesisBlock]
  | 1 => ⟨{ sampleHeader 1 0 1 10000 0 with version := 3 }, [], []⟩ :: votedBranch 0
  | n + 2 => ⟨{ sampleHeader (n + 2) (n + 1) (n + 2) (n + 1) (n + 1) with version := 3 }, [],
      [yesVote (n + 2)]⟩ :: votedBranch (n + 1)

/-- Twelve key blocks, and a micro block that names a key block by its nonce. -/
def votingBranch (prevKey : ℕ) : Branch :=
  ⟨sampleHeader 13 12 1001 12 prevKey, [], []⟩ :: votedBranch 12

theorem mem_deployments_votingParams (hd : d ∈ votingParams.deployments version) :
    version = 1 ∧ d = votingAgenda := by
  by_cases hversion : version = 1
  · subst hversion
    exact ⟨rfl, mem_singleton.1 hd⟩
  · rw [show votingParams.deployments version = [] from if_neg hversion] at hd
    exact absurd hd not_mem_nil

/-- The sample agenda is valid. -/
theorem validAgendas_voting : ValidAgendas votingEnv votingParams where
  interval_pos := by decide
  two_le := by decide
  rule_pos := by decide
  offset := by decide
  mask := fun _ d hd => by
    rw [(mem_deployments_votingParams hd).2]
    decide
  version_pos := fun version hne => by
    obtain ⟨d, hd⟩ := exists_mem_of_ne_nil _ hne
    rw [(mem_deployments_votingParams hd).1]
    decide
  choices := fun _ d hd => by
    rw [(mem_deployments_votingParams hd).2]
    decide

/-- The sample branch has valid times. -/
theorem validTimes_votingBranch : ValidTimes (votingBranch 12) ∧ ValidTimes (votingBranch 1) :=
  ⟨⟨by decide +kernel, by decide +kernel⟩, ⟨by decide +kernel, by decide +kernel⟩⟩

theorem nodup_votingBranch : ((votingBranch 12).map fun b => votingEnv.blockHash b.header).Nodup ∧
    ((votingBranch 1).map fun b => votingEnv.blockHash b.header).Nodup := by
  decide +kernel

/-- The window of eleven times has moved on by three blocks. -/
theorem calcPastMedianTime_le_votingBranch :
    calcPastMedianTime (((votingBranch 12).drop 2).map MsgBlock.header) ≤
      calcPastMedianTime ((votingBranch 12).map MsgBlock.header) :=
  calcPastMedianTime_le_of_suffix validTimes_votingBranch.1.after (drop_suffix _ _)
    (cons_ne_nil _ _)

/-- The sample branch is a tree. -/
theorem blockTree_votingBranch :
    BlockTree votingEnv (branchIndex votingEnv (votingBranch 12)) (branchTree (votingBranch 12)) :=
  blockTree_branchTree nodup_votingBranch.1
    ⟨⟨by decide +kernel, by decide +kernel, by decide +kernel,
    branchIndex_indexed nodup_votingBranch.1⟩, by decide +kernel⟩

/-- The sample branch has few votes. -/
theorem fewVotes_votingBranch :
    ∀ node ∈ branchTree (votingBranch 12), FewVotes votingEnv votingParams node := by
  have hall : ∀ node ∈ (votingBranch 12).tails, FewVotes votingEnv votingParams node := by
    unfold FewVotes
    decide +kernel
  exact fun node hnode => hall node ((mem_tails _ _).2 hnode.1)

/-- The micro block names the last key block. The votes lock the agenda in, which then becomes
active. -/
theorem thresholdStateCall_votingLaw_votingBranch : ∃ state : Branch → ThresholdStateTuple,
    FindsStates votingEnv votingParams (branchIndex votingEnv (votingBranch 12)) 1 "agenda" state ∧
      VotingLaw votingEnv votingParams 1 votingAgenda (branchTree (votingBranch 12)) state ∧
      state (votedBranch 6) = ⟨.lockedIn, 2⟩ ∧ state (votingBranch 12) = ⟨.active, 2⟩ := by
  have hfind : findDeployment votingParams 1 "agenda" = some (votingAgenda, 0) := by decide +kernel
  obtain ⟨state, hcalls, hlaw⟩ := thresholdStateCall_votingLaw blockTree_votingBranch
    (fun _ _ h => ⟨(mem_branchTree_of_branchIndex h).1, (mem_branchTree_of_branchIndex h).1.2⟩)
    (fun _ h => validTimes_votingBranch.1.of_suffix h.1) fewVotes_votingBranch
      validAgendas_voting hfind
  exact ⟨state, hcalls, hlaw,
    hcalls.eq_of_empty (sampleBlockHash 6) (by decide +kernel) (by decide +kernel),
    hcalls.eq_of_empty (sampleBlockHash 1001) (by decide +kernel) (by decide +kernel)⟩

/-- The micro block names the first key block instead: for the block after it the agenda is only
defined, for that after its parent, in the same window, it is active. -/
theorem not_votingLaw_of_misnamed :
    (∀ b below, b :: below <:+ votingBranch 1 →
      b.header.keyHeight = (keys votingEnv below).length) ∧
    (∀ b below, b :: below <:+ votingBranch 1 → below ≠ [] →
      b.header.prevBlock = nodeHash votingEnv below) ∧
    ((votingBranch 1).map fun b => votingEnv.blockHash b.header).Nodup ∧
    ValidTimes (votingBranch 1) ∧ ValidAgendas votingEnv votingParams ∧
    ¬ ∃ state : Branch → ThresholdStateTuple,
      FindsStates votingEnv votingParams (branchIndex votingEnv (votingBranch 1)) 1 "agenda" state ∧
      VotingLaw votingEnv votingParams 1 votingAgenda (branchTree (votingBranch 1)) state := by
  refine ⟨by decide +kernel, by decide +kernel, nodup_votingBranch.2, validTimes_votingBranch.2,
    validAgendas_voting, ?_⟩
  rintro ⟨state, hcalls, hlaw⟩
  have hmisnamed : state (votingBranch 1) = ⟨.defined, invalidChoice⟩ :=
    hcalls.eq_of_empty (sampleBlockHash 1001) (by decide +kernel) (by decide +kernel)
  have hparent : state (votedBranch 12) = ⟨.active, 2⟩ :=
    hcalls.eq_of_empty (sampleBlockHash 12) (by decide +kernel) (by decide +kernel)
  have hsame := hlaw.constant (votingBranch 1) ⟨suffix_refl _, cons_ne_nil _ _⟩ (votedBranch 12)
    (by decide) (suffix_cons _ _) (by decide +kernel)
  rw [hmisnamed, hparent] at hsame
  exact nomatch hsame

end Hcashd.Blockchain.Voting
