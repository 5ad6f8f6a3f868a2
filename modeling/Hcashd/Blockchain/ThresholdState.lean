import Hcashd.Blockchain.StakeVersion

/-!
# Voting on agendas

`thresholdstate.go` and `votebits.go`: the state of an agenda for the block after a node. It changes
only from window to window of key blocks: it starts once the stake version and the blocks allow it,
is locked in by a window with enough votes for one of its choices, and is active from the window
after that on. The states of windows are cached by the block that ends the window before.
-/

namespace Hcashd.Blockchain.Voting

open Lib Stake List Function

/-- `ThresholdState`: how far the vote on an agenda is. -/
inductive ThresholdState
  | defined | started | lockedIn | active | failed | invalid
  deriving DecidableEq, Repr

/-- `ThresholdStateTuple`: the state, and the choice that has won. -/
structure ThresholdStateTuple where
  state : ThresholdState
  choice : ℕ
  deriving DecidableEq, Repr

/-- The choice where none has won. -/
def invalidChoice : ℕ := 0xffffffff

/-- `thresholdConditionTally`: the votes for one choice. -/
structure ThresholdConditionTally where
  count : ℕ
  isAbstain : Bool
  isNo : Bool
  deriving DecidableEq, Repr

/-- `thresholdStateCache`. What is written to the database is not part of it. -/
abbrev ThresholdStateCache := Hash → Option ThresholdStateTuple

/-- All caches: those of the stake versions, and one for each agenda of a version. -/
structure Caches where
  versions : VersionCaches
  deploymentCaches : ℕ → ℕ → ThresholdStateCache

/-- `newThresholdCaches`, and the other caches of a new node. -/
def Caches.empty : Caches := ⟨VersionCaches.empty, fun _ _ _ => none⟩

/-- `uint64(t.Unix())`. -/
def unixTime (t : ℤ) : ℕ := (t % 2^64).toNat

/-- The shift of `Condition`: the lowest bit of a mask. -/
def maskShift (mask : ℕ) : ℕ := ((range 16).find? mask.testBit).getD 0

/-- The number of the choice that the bits of a vote stand for. -/
def choiceOf (mask bits : ℕ) : ℕ := (mask &&& bits) >>> maskShift mask

variable (env : Env) (v : VotingParams) (index : Hash → Option Branch)

/-- The votes of a version for the choice of a number. -/
def votesFor (d : ConsensusDeployment) (version : ℕ) (votes : List VoteVersionTuple) (k : ℕ) : ℕ :=
  votes.countP fun vote => version = vote.version ∧ choiceOf d.vote.mask vote.bits = k

/-- What `Condition` counts of some votes: those of the version for each choice, in 32 bits. -/
def tallyOf (d : ConsensusDeployment) (version : ℕ) (votes : List VoteVersionTuple) :
    List ThresholdConditionTally :=
  d.vote.choices.zipIdx.map fun (choice, k) =>
    ⟨u32 (votesFor d version votes k), choice.isAbstain, choice.isNo⟩

/-- `Condition` of `deploymentChecker`: the votes of a block on the agenda. -/
def condition (d : ConsensusDeployment) (version : ℕ) (block : MsgBlock) :
    Except Err (List ThresholdConditionTally) := do
  rejectIf (d.vote.mask = 0) Err.assertion
  pure (tallyOf d version (voteBitsInBlock env block))

/-- The counts of a block added to those so far. -/
def addTally (counts c : List ThresholdConditionTally) : List ThresholdConditionTally :=
  if counts = [] then c
  else zipWith (fun v w => ⟨u32 (v.count + w.count), w.isAbstain, w.isNo⟩) counts c

/-- The votes of a block that do not abstain. -/
def nonAbstain (c : List ThresholdConditionTally) : ℕ :=
  u32 ((c.filter fun w => !w.isAbstain).map ThresholdConditionTally.count).sum

/-- The loop of `thresholdState` over the key blocks of a window: the counts, and the votes that do
not abstain. -/
def countLoop (d : ConsensusDeployment) (version : ℕ) : ℕ → Branch →
    List ThresholdConditionTally × ℕ → Except Err (List ThresholdConditionTally × ℕ)
  | 0, _, acc => pure acc
  | _ + 1, [], _ => .error .panic
  | n + 1, b :: below, (counts, totalVotes) => do
    let c ← condition env d version b
    let prev ← getPrevKeyNodeFromNode env index (b :: below)
    countLoop d version n prev (addTally counts c, u32 (totalVotes + nonAbstain c))

/-- How many votes a choice needs to win. -/
def ruleChangeActivationThreshold (totalVotes : ℕ) : ℕ :=
  u32 (totalVotes * v.ruleChangeActivationMultiplier) / v.ruleChangeActivationDivisor

/-- The end of a window in which an agenda was voted on. The first choice that has the share of the
votes decides, unless it is to abstain. -/
def decideVote (counts : List ThresholdConditionTally) (totalVotes : ℕ) (t : ThresholdStateTuple) :
    ThresholdStateTuple :=
  let totalNonAbstainVotes :=
    u32 ((counts.filter fun w => !(w.isAbstain && !w.isNo)).map ThresholdConditionTally.count).sum
  if totalNonAbstainVotes < v.ruleChangeActivationQuorum then t
  else match counts.zipIdx.find? fun (w, _) =>
      ruleChangeActivationThreshold v totalVotes ≤ w.count ∧ ¬(w.isAbstain ∧ ¬w.isNo) with
    | none => t
    | some (w, k) => if !w.isAbstain && !w.isNo then ⟨.lockedIn, k⟩ else ⟨.failed, k⟩

/-- The median time of a node, as `uint64`. -/
def medianTimeOf (node : Branch) : ℕ := unixTime (calcPastMedianTime (node.map MsgBlock.header))

/-- The step of `thresholdState` from the state of a window to that of the next, at the node that
ends the window. -/
def nextState (version : ℕ) (d : ConsensusDeployment) (node : Branch) (t : ThresholdStateTuple)
    (c : VersionCaches) : Except Err (ThresholdStateTuple × VersionCaches) :=
  match t.state with
  | .defined =>
    if (node.head?.map fun b => b.header.height).getD 0 < env.params.stakeValidationHeight then
      pure (t, c)
    else if d.expireTime ≤ medianTimeOf node then pure ({ t with state := .failed }, c)
    else do
      let (stakeVersion, c) ← calcStakeVersion env v index node c
      if stakeVersion < version then pure (t, c)
      else do
        let majority ← isMajorityVersion env v index version node v.blockRejectNumRequired
        if majority = false then pure (t, c)
        else if d.startTime ≤ medianTimeOf node then pure ({ t with state := .started }, c)
        else pure (t, c)
  | .started =>
    if d.expireTime ≤ medianTimeOf node then pure ({ t with state := .failed }, c)
    else do
      let (counts, totalVotes) ←
        countLoop env index d version v.ruleChangeActivationInterval node ([], 0)
      pure (decideVote v counts totalVotes t, c)
  | .lockedIn => pure ({ t with state := .active }, c)
  | _ => pure (t, c)

/-- The loop of `thresholdState` back over the ends of windows: where it stops, and the ends of
windows after that, oldest first. -/
def neededStates (d : ConsensusDeployment) : ℕ → Branch → List Branch → ThresholdStateCache →
    Except Err (Branch × List Branch × ThresholdStateCache)
  | _, [], needed, cache => pure ([], needed, cache)
  | 0, _ :: _, _, _ => .error .outOfFuel
  | fuel + 1, b :: below, needed, cache =>
    match cache (nodeHash env (b :: below)) with
    | some _ => pure (b :: below, needed, cache)
    | none =>
      if medianTimeOf (b :: below) < d.startTime then
        pure (b :: below, needed,
          update cache (nodeHash env (b :: below)) (some ⟨.defined, invalidChoice⟩))
      else do
        let prev ← ancestorKeyNode env index (b :: below)
          ((b.header.keyHeight : ℤ) - v.ruleChangeActivationInterval + 1)
        neededStates d fuel prev ((b :: below) :: needed) cache

/-- The state at which the loop forward begins. -/
def startState (stop : Branch) (cache : ThresholdStateCache) : Except Err ThresholdStateTuple :=
  if stop = [] then pure ⟨.defined, invalidChoice⟩
  else match cache (nodeHash env stop) with
    | some t => pure t
    | none => .error .assertion

/-- The step of the loop forward. -/
def replayState (version : ℕ) (d : ConsensusDeployment)
    (s : ThresholdStateTuple × VersionCaches × ThresholdStateCache) (node : Branch) :
    Except Err (ThresholdStateTuple × VersionCaches × ThresholdStateCache) := do
  let (t, versions) ← nextState env v index version d node s.1 s.2.1
  pure (t, versions, update s.2.2 (nodeHash env node) (some t))

/-- `thresholdState`: the state for the block after a node. -/
def thresholdState (version : ℕ) (prevNode : Branch) (d : ConsensusDeployment)
    (versions : VersionCaches) (cache : ThresholdStateCache) :
    Except Err (ThresholdStateTuple × VersionCaches × ThresholdStateCache) := do
  let prevNode ← toKeyNode env index prevNode
  if prevNode = [] ∨ keyHeightOf prevNode + 2 < env.params.stakeValidationHeight +
    v.ruleChangeActivationInterval then
    pure (⟨.defined, invalidChoice⟩, versions, cache)
  else do
    let wantHeight := calcWantHeight env.params.stakeValidationHeight v.ruleChangeActivationInterval
      (keyHeightOf prevNode + 2)
    let prevNode ← ancestorKeyNode env index prevNode wantHeight
    let (stop, needed, cache) ← neededStates env v index d prevNode.length prevNode [] cache
    let t ← startState env stop cache
    needed.foldlM (replayState env v index version d) (t, versions, cache)

/-- The first agenda of a version with an id, and its place. -/
def findDeployment (version : ℕ) (deploymentID : String) : Option (ConsensusDeployment × ℕ) :=
  (v.deployments version).zipIdx.find? fun (d, _) => d.vote.id = deploymentID

/-- `deploymentState`: the state of an agenda, found by its version and name. -/
def deploymentState (prevNode : Branch) (version : ℕ) (deploymentID : String) (c : Caches) :
    Except Err (ThresholdStateTuple × Caches) :=
  match findDeployment v version deploymentID with
  | none => .error .other
  | some (d, k) => do
    let (t, versions, cache) ← thresholdState env v index version prevNode d c.versions
      (c.deploymentCaches version k)
    pure (t, ⟨versions, update c.deploymentCaches version
      (update (c.deploymentCaches version) k cache)⟩)

/-- `ThresholdState`: the state for the block after that with a hash. -/
def thresholdStateCall (hash : Hash) (version : ℕ) (deploymentID : String) (c : Caches) :
    Except Err (ThresholdStateTuple × Caches) :=
  match index hash with
  | none => .error .other
  | some node => deploymentState env v index node version deploymentID c

/-- The caches of a node after a sequence of calls. One that does not find its block or its agenda
leaves them as they were. One that fails later may have filled them, and nothing is said of them
then. -/
inductive AfterCalls : Caches → Prop
  | new : AfterCalls Caches.empty
  | ok {c c' : Caches} {hash : Hash} {version : ℕ} {id : String} {t : ThresholdStateTuple}
      (h : AfterCalls c)
    (hcall : thresholdStateCall env v index hash version id c = .ok (t, c')) : AfterCalls c'
  | error {c c' : Caches} {hash : Hash} {version : ℕ} {id : String} {node : Branch}
    {found : ConsensusDeployment × ℕ} {e : Err} (h : AfterCalls c) (hnode : index hash = some node)
    (hfind : findDeployment v version id = some found)
    (hcall : thresholdStateCall env v index hash version id c = .error e) : AfterCalls c'

/-! ## What the caches are caches of -/

/-- The end of the window before that which a node ends, nil if there is none. -/
def windowBefore (node : Branch) : Branch :=
  if keyHeightOf node < v.ruleChangeActivationInterval then []
  else atKeyHeight env ((keyHeightOf node : ℤ) - v.ruleChangeActivationInterval) node

/-- The key blocks of the window that a node ends. -/
def ruleWindow (node : Branch) : List MsgBlock :=
  (keys env node).take v.ruleChangeActivationInterval

/-- The votes of a version that do not abstain. -/
def votesCast (d : ConsensusDeployment) (version : ℕ) (votes : List VoteVersionTuple) : ℕ :=
  ((d.vote.choices.zipIdx.filter fun p => !p.1.isAbstain).map fun p =>
    votesFor d version votes p.2).sum

/-- The votes on an agenda in the window that a node ends. -/
def windowTally (version : ℕ) (d : ConsensusDeployment) (node : Branch) :
    List ThresholdConditionTally :=
  tallyOf d version (votesOf env (ruleWindow env v node))

/-- The state of the next window, from that of the window that a node ends. -/
def stepState (version : ℕ) (d : ConsensusDeployment) (node : Branch) (t : ThresholdStateTuple) :
    ThresholdStateTuple :=
  match t.state with
  | .defined =>
    if (node.head?.map fun b => b.header.height).getD 0 < env.params.stakeValidationHeight then t
    else if d.expireTime ≤ medianTimeOf node then { t with state := .failed }
    else if stakeVersion env v node < version then t
    else if blocksMajority env v version node v.blockRejectNumRequired = false then t
    else if d.startTime ≤ medianTimeOf node then { t with state := .started }
    else t
  | .started =>
    if d.expireTime ≤ medianTimeOf node then { t with state := .failed }
    else decideVote v (windowTally env v version d node)
      (nonAbstain (windowTally env v version d node)) t
  | .lockedIn => { t with state := .active }
  | _ => t

/-- The state after the window that a node ends. -/
def stateAfter (version : ℕ) (d : ConsensusDeployment) : ℕ → Branch → ThresholdStateTuple
  | _, [] => ⟨.defined, invalidChoice⟩
  | 0, _ :: _ => ⟨.defined, invalidChoice⟩
  | fuel + 1, b :: below =>
    if medianTimeOf (b :: below) < d.startTime then ⟨.defined, invalidChoice⟩
    else stepState env v version d (b :: below)
      (stateAfter version d fuel (windowBefore env v (b :: below)))

/-- The state after the window that a node ends. A branch has no more windows than blocks. -/
def endState (version : ℕ) (d : ConsensusDeployment) (node : Branch) : ThresholdStateTuple :=
  stateAfter env v version d node.length node

/-- The state for the block after a node. -/
def agendaState (version : ℕ) (d : ConsensusDeployment) (node : Branch) : ThresholdStateTuple :=
  endState env v version d (windowEnd env v.ruleChangeActivationInterval node)

/-- The windows of the voting on agendas have key blocks, and none ends at the key height zero.
Agendas have a mask for their votes. -/
structure SoundAgendas : Prop extends SoundWindows env v where
  rule_pos : 0 < v.ruleChangeActivationInterval
  offset : env.params.stakeValidationHeight % v.ruleChangeActivationInterval ≠
    1 % v.ruleChangeActivationInterval
  mask : ∀ version, ∀ d ∈ v.deployments version, d.vote.mask ≠ 0

/-- A cache holds the states after the windows that the nodes of a tree end. -/
def ThresholdStateCache.Sound (version : ℕ) (d : ConsensusDeployment) (tree : Set Branch)
    (cache : ThresholdStateCache) : Prop :=
  TableSound (fun hash t => AtHash env tree hash fun node =>
    t = endState env v version d node) cache

/-- All caches hold what is computed for the nodes of a tree. -/
structure Caches.Sound (tree : Set Branch) (c : Caches) : Prop where
  versions : c.versions.Sound env v tree
  deployments : ∀ version k d, (v.deployments version)[k]? = some d →
    (c.deploymentCaches version k).Sound env v version d tree

/-- A node is nil, or the key block that ends a window. -/
def EndsWindow (node : Branch) : Prop :=
  ∀ b ∈ node.head?, isKey env b = true ∧ (b.header.keyHeight + 2) % v.ruleChangeActivationInterval =
    env.params.stakeValidationHeight % v.ruleChangeActivationInterval

/-- Nodes that end windows which follow each other, from that after a node on, all after the start
of the voting. -/
def Replays (d : ConsensusDeployment) (tree : Set Branch) : Branch → List Branch → Prop
  | _, [] => True
  | stop, node :: needed =>
    (node ∈ tree ∧ node ≠ [] ∧ KeyHead env node ∧ windowBefore env v node = stop ∧
      ¬ medianTimeOf node < d.startTime) ∧ Replays d tree node needed

variable {env v index} {tree : Set Branch} {node : Branch} {version : ℕ} {d : ConsensusDeployment}

/-- The window before ends at an ancestor. -/
theorem windowBefore_suffix (hpos : 0 < v.ruleChangeActivationInterval) (b : MsgBlock)
    (below : Branch) :
    windowBefore env v (b :: below) <:+ below := by
  rw [windowBefore, keyHeightOf_cons]
  split_ifs
  · exact nil_suffix
  · rw [atKeyHeight_cons_of_not (.inr (by omega))]
    exact atKeyHeight_suffix _ _

theorem keyHead_windowBefore (node : Branch) : KeyHead env (windowBefore env v node) := by
  rw [windowBefore]
  split_ifs
  · simp [KeyHead]
  · exact keyHead_atKeyHeight _ _

/-- More fuel changes nothing. -/
theorem stateAfter_of_le (hpos : 0 < v.ruleChangeActivationInterval) {fuel : ℕ}
    (hfuel : node.length ≤ fuel) :
    stateAfter env v version d fuel node = endState env v version d node := by
  induction fuel using Nat.strong_induction_on generalizing node with
  | _ fuel ih =>
    cases node with
    | nil => cases fuel <;> rfl
    | cons b below =>
      obtain ⟨fuel, rfl⟩ := Nat.exists_eq_succ_of_ne_zero (Nat.ne_zero_of_lt hfuel)
      have hsuffix : windowBefore env v (b :: below) <:+ below := windowBefore_suffix hpos b below
      have hshort := hsuffix.length_le
      rw [length_cons] at hfuel
      rw [endState, length_cons, stateAfter, stateAfter, ih fuel (by omega) (by omega),
        ih below.length (by omega) hshort]

/-- The recursion over windows. -/
theorem endState_cons (hpos : 0 < v.ruleChangeActivationInterval) (b : MsgBlock) (below : Branch) :
    endState env v version d (b :: below) = if medianTimeOf (b :: below) < d.startTime
      then ⟨.defined, invalidChoice⟩ else stepState env v version d (b :: below)
      (endState env v version d (windowBefore env v (b :: below))) := by
  rw [endState, length_cons, stateAfter,
    stateAfter_of_le hpos (windowBefore_suffix hpos b below).length_le]

/-! ## The votes of a window -/

/-- Tallies add up. -/
theorem addTally_tallyOf (d : ConsensusDeployment) (version : ℕ) (xs ys : List VoteVersionTuple) :
    addTally (tallyOf d version xs) (tallyOf d version ys) = tallyOf d version (xs ++ ys) := by
  rw [addTally]
  split_ifs with hnil
  · have hchoices : d.vote.choices.zipIdx = [] := map_eq_nil_iff.1 hnil
    simp [tallyOf, hchoices]
  · simp [tallyOf, zipWith_map_left, zipWith_map_right, zipWith_self, votesFor, countP_append, u32]

/-- The votes that count, as a 32-bit number. -/
theorem nonAbstain_tallyOf (d : ConsensusDeployment) (version : ℕ) (votes : List VoteVersionTuple) :
    nonAbstain (tallyOf d version votes) = u32 (votesCast d version votes) := by
  rw [votesCast, u32, sum_nat_mod, map_map]
  simp only [nonAbstain, tallyOf, filter_map, comp_def, map_map, u32]

theorem nonAbstain_tallyOf_append (d : ConsensusDeployment) (version : ℕ)
    (xs ys : List VoteVersionTuple) :
    nonAbstain (tallyOf d version (xs ++ ys)) =
      u32 (nonAbstain (tallyOf d version xs) + nonAbstain (tallyOf d version ys)) := by
  simp only [nonAbstain_tallyOf, votesCast, votesFor, countP_append, sum_map_add, u32,
    ← Nat.add_mod]

/-- The tally of one block. -/
theorem condition_of_mask (hmask : d.vote.mask ≠ 0) (b : MsgBlock) :
    condition env d version b = .ok (tallyOf d version (voteBitsInBlock env b)) := by
  simp [condition, rejectIf, hmask]

/-- The loop tallies the votes of the last key blocks. -/
theorem Named.countLoop (h : Named env index node) (hhead : KeyHead env node)
    (hmask : d.vote.mask ≠ 0)
    {n : ℕ} (hn : n ≤ (keys env node).length) (votes : List VoteVersionTuple) :
    countLoop env index d version n node
      (tallyOf d version votes, nonAbstain (tallyOf d version votes)) =
      .ok (tallyOf d version (votes ++ votesOf env ((keys env node).take n)),
        nonAbstain (tallyOf d version (votes ++ votesOf env ((keys env node).take n)))) := by
  induction n generalizing node votes with
  | zero =>
    rw [take_zero, votesOf, flatMap_nil, append_nil]
    rfl
  | succ n ih =>
    cases node with
    | nil => simp at hn
    | cons b below =>
      rw [keys_cons_of_key (keyHead_cons.1 hhead)] at hn ⊢
      have hn' : n ≤ (keys env (Voting.lastKey env below)).length := by
        rw [keys_lastKey]
        simpa using hn
      rw [Voting.countLoop, condition_of_mask hmask, ok_bind, h.getPrevKeyNodeFromNode, ok_bind,
        addTally_tallyOf, ← nonAbstain_tallyOf_append,
        ih h.tail.lastKey (keyHead_lastKey below) hn',
        keys_lastKey, take_succ_cons, votesOf, votesOf, flatMap_cons, append_assoc]

theorem Named.countLoop_nil (h : Named env index node) (hhead : KeyHead env node)
    (hmask : d.vote.mask ≠ 0) (hpos : 0 < v.ruleChangeActivationInterval)
    (hlen : v.ruleChangeActivationInterval ≤ (keys env node).length) :
    Voting.countLoop env index d version v.ruleChangeActivationInterval node ([], 0) =
      .ok (windowTally env v version d node, nonAbstain (windowTally env v version d node)) := by
  have hzero : nonAbstain (tallyOf d version []) =
      0 := by simp [nonAbstain_tallyOf, votesCast, votesFor, u32]
  have hfirst : ∀ ys, addTally [] (tallyOf d version ys) =
      addTally (tallyOf d version []) (tallyOf d version ys) := fun ys => by
    rw [addTally_tallyOf]
    rfl
  have hstart : Voting.countLoop env index d version v.ruleChangeActivationInterval node ([], 0) =
      Voting.countLoop env index d version v.ruleChangeActivationInterval node
        (tallyOf d version [], nonAbstain (tallyOf d version [])) := by
    obtain ⟨n, hn⟩ := Nat.exists_eq_add_of_lt hpos
    rw [hzero, hn, Nat.zero_add]
    cases node with
    | nil => rfl
    | cons b below =>
      rw [Voting.countLoop, Voting.countLoop, condition_of_mask hmask, ok_bind, ok_bind, hfirst]
  rw [hstart, h.countLoop hhead hmask hlen, nil_append]
  rfl

/-! ## The caches hold the states -/

variable {cache : ThresholdStateCache}

theorem EndsWindow.keyHead (h : EndsWindow env v node) : KeyHead env node := fun b hb => (h b hb).1

/-- The ancestor is the end of the window before. -/
theorem KeyChained.ancestorKeyNode_windowBefore {b : MsgBlock} {below : Branch}
    (h : KeyChained env index (b :: below)) (hv : SoundAgendas env v)
    (hends : EndsWindow env v (b :: below)) :
    ancestorKeyNode env index (b :: below)
    ((b.header.keyHeight : ℤ) - v.ruleChangeActivationInterval + 1) =
        .ok (windowBefore env v (b :: below)) ∧
      EndsWindow env v (windowBefore env v (b :: below)) := by
  obtain ⟨hkey, hmod⟩ := hends b rfl
  have hpos := hv.rule_pos
  rw [h.toNamed.ancestorKeyNode (lastKey_cons_of_key hkey), windowBefore, keyHeightOf_cons]
  by_cases hshort : b.header.keyHeight < v.ruleChangeActivationInterval
  · -- No window ends at the first key block.
    have hne : b.header.keyHeight + 1 ≠ v.ruleChangeActivationInterval := by
      intro heq
      refine hv.offset ?_
      rw [← hmod, show b.header.keyHeight + 2 = 1 + v.ruleChangeActivationInterval by omega,
        Nat.add_mod_right]
    rw [if_pos hshort, if_pos (.inr (by omega))]
    exact ⟨rfl, by simp [EndsWindow]⟩
  · obtain ⟨k, rest, hat, hk⟩ := h.exists_atKeyHeight
      (n := b.header.keyHeight - v.ruleChangeActivationInterval) (by rw [h.length_keys hkey]; omega)
    have hat' : atKeyHeight env ((b.header.keyHeight : ℤ) - v.ruleChangeActivationInterval)
        (b :: below) = k :: rest := by
      rw [← hat]
      congr 1
      omega
    rw [if_neg hshort, if_neg (by omega), add_sub_cancel_right, hat', if_neg (cons_ne_nil _ _)]
    refine ⟨rfl, fun k' hk' => ?_⟩
    obtain rfl := Option.some.inj hk'
    refine ⟨keyHead_cons.1 (hat' ▸ keyHead_atKeyHeight _ _), ?_⟩
    rw [← hmod, show b.header.keyHeight + 2 =
      k.header.keyHeight + 2 + v.ruleChangeActivationInterval by omega,
      Nat.add_mod_right]

/-- A cached state is the state of the recursion. -/
theorem startState_of_sound {stop : Branch} (hstop : stop ∈ tree) (hne : stop ≠ [])
    (hcache : cache.Sound env v version d tree) {t : ThresholdStateTuple}
    (hget : cache (nodeHash env stop) = some t) :
    startState env stop cache = .ok (endState env v version d stop) := by
  rw [startState, if_neg hne, hget, ← hcache _ _ hget stop hstop rfl]
  rfl

theorem KeyChained.le_length_keys (h : KeyChained env index node) (hhead : KeyHead env node)
    (hne : windowBefore env v node ≠ []) :
    v.ruleChangeActivationInterval ≤ (keys env node).length := by
  cases node with
  | nil => exact absurd (by rw [windowBefore]; split_ifs <;> rfl) hne
  | cons b below =>
    rw [windowBefore, keyHeightOf_cons] at hne
    split_ifs at hne with hlt
    · exact absurd rfl hne
    · rw [h.length_keys (keyHead_cons.1 hhead)]
      omega

theorem KeyChained.endsWindow_windowEnd (h : KeyChained env index node) (hv : SoundAgendas env v) :
    EndsWindow env v (windowEnd env v.ruleChangeActivationInterval node) := by
  intro k hk
  refine ⟨keyHead_windowEnd _ node k hk, ?_⟩
  cases hlast : lastKey env node with
  | nil => simp [windowEnd, hlast] at hk
  | cons b below =>
    by_cases hlt :
      b.header.keyHeight + 2 < env.params.stakeValidationHeight + v.ruleChangeActivationInterval
    · simp [windowEnd_of_lt hlast hlt] at hk
    · obtain ⟨k', rest, hend, hk'⟩ := h.exists_windowEnd hv.rule_pos hv.two_le hlast (not_lt.1 hlt)
      rw [hend] at hk
      obtain rfl := Option.some.inj hk
      have hmodle := Nat.mod_le env.params.stakeValidationHeight v.ruleChangeActivationInterval
      rw [hk', windowStart_mod (by omega)]

/-- Empty caches are sound. -/
theorem Caches.sound_empty : Caches.empty.Sound env v tree where
  versions := VersionCaches.sound_empty
  deployments := fun _ _ _ _ => tableSound_empty

section Tree

variable {c : VersionCaches} (ht : BlockTree env index tree) (hv : SoundAgendas env v)

include ht hv

/-- One replayed window is one step of the recursion. -/
theorem BlockTree.nextState (version : ℕ) (hnode : node ∈ tree) (hhead : KeyHead env node)
    (hne : node ≠ []) (hmask : d.vote.mask ≠ 0) {t : ThresholdStateTuple}
    (hstarted : t.state = .started → v.ruleChangeActivationInterval ≤ (keys env node).length)
    (hc : c.Sound env v tree) :
    ∃ c', nextState env v index version d node t c = .ok (stepState env v version d node t, c') ∧
      c'.Sound env v tree := by
  have hnamed := (ht.chained node hnode).toNamed
  obtain ⟨state, choice⟩ := t
  cases state with
  | defined =>
    obtain ⟨c1, hversion, hc1⟩ :=
      ht.calcStakeVersion hv.toSoundWindows hnode (hhead.keys_ne_nil hne) hc
    simp only [Voting.nextState, stepState, hversion, ok_bind, hnamed.isMajorityVersion hhead]
    split_ifs <;> first | exact ⟨c, rfl, hc⟩ | exact ⟨c1, rfl, hc1⟩
  | started =>
    simp only [Voting.nextState, stepState,
      hnamed.countLoop_nil hhead hmask hv.rule_pos (hstarted rfl), ok_bind]
    split_ifs <;> exact ⟨c, rfl, hc⟩
  | lockedIn | active | failed | invalid => exact ⟨c, rfl, hc⟩

/-- The walk down stops at a state that is known. -/
theorem BlockTree.neededStates {fuel : ℕ}
    (hnode : node = [] ∨ node ∈ tree) (hends : EndsWindow env v node) (hfuel : node.length ≤ fuel)
    {needed : List Branch} (hneeded : Replays env v d tree node needed)
    (hcache : cache.Sound env v version d tree) :
    ∃ stop needed' cache', neededStates env v index d fuel node needed cache =
      .ok (stop, needed', cache') ∧
      cache'.Sound env v version d tree ∧
      startState env stop cache' = .ok (endState env v version d stop) ∧
      Replays env v d tree stop needed' ∧ needed'.getLastD stop = needed.getLastD node := by
  induction fuel generalizing node needed with
  | zero =>
    obtain rfl := length_eq_zero_iff.1 (Nat.le_zero.1 hfuel)
    exact ⟨[], needed, cache, rfl, hcache, rfl, hneeded, rfl⟩
  | succ fuel ih =>
    cases node with
    | nil => exact ⟨[], needed, cache, rfl, hcache, rfl, hneeded, rfl⟩
    | cons b below =>
      have hmem := hnode.resolve_left (cons_ne_nil _ _)
      rw [Voting.neededStates]
      cases hget : cache (nodeHash env (b :: below)) with
      | some t =>
        exact ⟨b :: below, needed, cache, rfl, hcache,
          startState_of_sound hmem (cons_ne_nil _ _) hcache hget, hneeded, rfl⟩
      | none =>
        by_cases hearly : medianTimeOf (b :: below) < d.startTime
        · have hstate : endState env v version d (b :: below) = ⟨.defined, invalidChoice⟩ := by
            rw [endState_cons hv.rule_pos, if_pos hearly]
          have hcache' := hcache.update (ht.atHash hmem hstate.symm)
          rw [if_pos hearly]
          exact ⟨b :: below, needed, _, rfl, hcache',
            startState_of_sound hmem (cons_ne_nil _ _) hcache'
            (update_self _ _ _), hneeded, rfl⟩
        · obtain ⟨hancestor, hends'⟩ := (ht.chained _ hmem).ancestorKeyNode_windowBefore hv hends
          have hsuffix : windowBefore env v (b :: below) <:+ below :=
            windowBefore_suffix hv.rule_pos b below
          have hshort := hsuffix.length_le
          rw [length_cons] at hfuel
          have hneeded' :
              Replays env v d tree (windowBefore env v (b :: below)) ((b :: below) :: needed) :=
            ⟨⟨hmem, cons_ne_nil _ _, hends.keyHead, rfl, hearly⟩, hneeded⟩
          rw [if_neg hearly, hancestor, ok_bind, ← getLastD_cons]
          exact ih (or_iff_not_imp_left.2
            (ht.suffix _ hmem _ (hsuffix.trans (suffix_cons b below))))
            hends' (by omega) hneeded'

/-- The way back up computes the states of the recursion. -/
theorem BlockTree.replayStates (hmask : d.vote.mask ≠ 0) {stop : Branch} {needed : List Branch}
    (hneeded : Replays env v d tree stop needed) (hc : c.Sound env v tree)
    (hcache : cache.Sound env v version d tree) :
    ∃ c' cache',
    needed.foldlM (replayState env v index version d) (endState env v version d stop, c, cache) =
          .ok (endState env v version d (needed.getLastD stop), c', cache') ∧
      c'.Sound env v tree ∧ cache'.Sound env v version d tree := by
  induction needed generalizing stop c cache with
  | nil => exact ⟨c, cache, rfl, hc, hcache⟩
  | cons node needed ih =>
    obtain ⟨⟨hmem, hne, hhead, rfl, hstart⟩, hrest⟩ := hneeded
    have hstarted : (endState env v version d (windowBefore env v node)).state = .started →
        v.ruleChangeActivationInterval ≤ (keys env node).length := by
      intro hstate
      refine (ht.chained node hmem).le_length_keys hhead fun hnil => ?_
      rw [hnil] at hstate
      exact nomatch hstate
    have hstep :
        stepState env v version d node (endState env v version d (windowBefore env v node)) =
        endState env v version d node := by
      obtain ⟨b, below, rfl⟩ := exists_cons_of_ne_nil hne
      rw [endState_cons hv.rule_pos b below, if_neg hstart]
    obtain ⟨c1, hnext, hc1⟩ := ht.nextState hv version hmem hhead hne hmask hstarted hc
    rw [hstep] at hnext
    obtain ⟨c', cache', hfold, hsound⟩ := ih hrest hc1 (hcache.update (ht.atHash hmem rfl))
    refine ⟨c', cache', ?_, hsound⟩
    rw [foldlM_cons, replayState, hnext, getLastD_cons]
    exact hfold

/-- `thresholdState` from sound caches is the recursion. -/
theorem BlockTree.thresholdState (hmask : d.vote.mask ≠ 0) (hnode : node ∈ tree) (hne : node ≠ [])
    (hc : c.Sound env v tree) (hcache : cache.Sound env v version d tree) :
    ∃ c' cache', thresholdState env v index version node d c cache =
        .ok (agendaState env v version d node, c', cache') ∧
      c'.Sound env v tree ∧ cache'.Sound env v version d tree := by
  have hchained := ht.chained node hnode
  have htoKey : toKeyNode env index node = .ok (lastKey env node) := by
    obtain ⟨b, below, rfl⟩ := exists_cons_of_ne_nil hne
    exact hchained.toNamed.toKeyNode
  rw [Voting.thresholdState, htoKey, ok_bind, agendaState]
  cases hlast : lastKey env node with
  | nil =>
    rw [if_pos (.inl rfl), windowEnd, hlast]
    exact ⟨c, cache, rfl, hc, hcache⟩
  | cons b below =>
    rw [keyHeightOf_cons]
    by_cases hlt :
      b.header.keyHeight + 2 < env.params.stakeValidationHeight + v.ruleChangeActivationInterval
    · rw [if_pos (.inr hlt), windowEnd_of_lt hlast hlt]
      exact ⟨c, cache, rfl, hc, hcache⟩
    have hle := not_lt.1 hlt
    have hmodle := Nat.mod_le env.params.stakeValidationHeight v.ruleChangeActivationInterval
    have hstart := windowStart_le env.params.stakeValidationHeight v.ruleChangeActivationInterval
      (b.header.keyHeight + 2)
    have hstart' := le_windowStart hv.rule_pos hle
    have htwo := hv.two_le
    have hwant := calcWantHeight_eq env.params.stakeValidationHeight v.ruleChangeActivationInterval
      (b.header.keyHeight + 2) (by omega)
    push_cast at hwant
    obtain ⟨k, rest, hend, -⟩ := hchained.exists_windowEnd hv.rule_pos hv.two_le hlast hle
    have hb : KeyChained env index (b :: below) := hlast ▸ hchained.of_suffix (lastKey_suffix node)
    have hkey : isKey env b = true := keyHead_cons.1 (hlast ▸ keyHead_lastKey node)
    -- The node before the window is there, so that `ancestorKeyNode` finds it.
    have hancestor : ancestorKeyNode env index (b :: below) (calcWantHeight
        env.params.stakeValidationHeight v.ruleChangeActivationInterval
          ((b.header.keyHeight : ℤ) + 2)) =
          .ok (windowEnd env v.ruleChangeActivationInterval node) := by
      have hat := windowEnd_of_le hlast hle
      rw [hb.toNamed.ancestorKeyNode (lastKey_cons_of_key hkey), hwant, if_neg (by omega), sub_sub,
        show (1 : ℤ) + 1 = 2 from rfl, ← hat, if_neg (by rw [hend]; exact cons_ne_nil _ _)]
    have hnone : Replays env v d tree (windowEnd env v.ruleChangeActivationInterval node) [] :=
      trivial
    obtain ⟨stop, needed, cache1, hneeded, hcache1, hstop, hreplays, hlastEnd⟩ :=
      ht.neededStates hv (or_iff_not_imp_left.2 (ht.suffix _ hnode _ (windowEnd_suffix _ _)))
        (hchained.endsWindow_windowEnd hv) le_rfl hnone hcache
    obtain ⟨c', cache', hfold, hc', hcache'⟩ := ht.replayStates hv hmask hreplays hc hcache1
    refine ⟨c', cache', ?_, hc', hcache'⟩
    rw [if_neg (not_or.2 ⟨cons_ne_nil _ _, hlt⟩)]
    dsimp only
    rw [hancestor, ok_bind, hneeded, ok_bind]
    dsimp only
    rw [hstop, ok_bind, hfold, hlastEnd]
    rfl

/-- `deploymentState` finds the state for the block after a node. -/
theorem BlockTree.deploymentState (hnode : node ∈ tree) (hne : node ≠ []) {id : String} {k : ℕ}
    (hfind : findDeployment v version id = some (d, k)) {c : Caches} (hc : c.Sound env v tree) :
    ∃ c', deploymentState env v index node version id c =
      .ok (agendaState env v version d node, c') ∧
      c'.Sound env v tree := by
  have hget := mem_zipIdx_iff_getElem?.1 (mem_of_find?_eq_some hfind)
  have hmask := hv.mask version d (mem_of_getElem? hget)
  obtain ⟨versions, cache, hstate, hversions, hcache⟩ :=
    ht.thresholdState hv hmask hnode hne hc.versions (hc.deployments version k d hget)
  rw [Voting.deploymentState, hfind]
  dsimp only
  rw [hstate]
  refine ⟨_, rfl, hversions, fun version' k' d' hget' => ?_⟩
  dsimp only
  rw [update_apply]
  split_ifs with hversion
  · subst hversion
    rw [update_apply]
    split_ifs with hk
    · subst hk
      obtain rfl := Option.some.inj (hget.symm.trans hget')
      exact hcache
    · exact hc.deployments version' k' d' hget'
  · exact hc.deployments version' k' d' hget'

/-! ## Calls -/

variable (hindex : ∀ hash node, index hash = some node → node ∈ tree ∧ node ≠ [])

include hindex

/-- The caches hold what is computed after all calls. None of them fails after it has found its
block and its agenda. -/
theorem BlockTree.afterCalls {c : Caches} (h : AfterCalls env v index c) : c.Sound env v tree := by
  induction h with
  | new => exact Caches.sound_empty
  | @ok c c' hash version id t _ hcall ih =>
    rw [thresholdStateCall] at hcall
    cases hnode : index hash with
    | none => simp [hnode] at hcall
    | some node =>
      simp only [hnode] at hcall
      obtain ⟨hmem, hne⟩ := hindex hash node hnode
      cases hfind : findDeployment v version id with
      | none => simp [Voting.deploymentState, hfind] at hcall
      | some found =>
        obtain ⟨c1, hstate, hc1⟩ := ht.deploymentState hv hmem hne hfind ih
        rw [hstate] at hcall
        exact (Prod.mk.inj (Except.ok.inj hcall)).2 ▸ hc1
  | @error c c' hash version id node found e _ hnode hfind hcall ih =>
    obtain ⟨hmem, hne⟩ := hindex hash node hnode
    obtain ⟨c1, hstate, -⟩ := ht.deploymentState hv hmem hne hfind ih
    rw [thresholdStateCall, hnode] at hcall
    exact nomatch hstate.symm.trans hcall

end Tree

end Hcashd.Blockchain.Voting
