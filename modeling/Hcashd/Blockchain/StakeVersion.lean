import Hcashd.Blockchain.KeyWalk
import Hcashd.Lib.Memo

/-!
# The stake version

`stakeversion.go`: the version that a block header is expected to carry is the last version that a
majority of the voters had in a window of key blocks, but not one below that of a majority of the
headers themselves. The results are cached by the block that ends a window.

Each function of the source has a function of the branch that it caches; they are equal for caches
that hold only what was computed before.
-/

namespace Hcashd.Blockchain.Voting

open Lib Stake List Function

/-- `VoteVersionTuple`: the version and the bits of a vote. -/
structure VoteVersionTuple where
  version : ℕ
  bits : ℕ
  deriving DecidableEq, Repr

/-- `calcWantHeight`: the last height of the window before that of a height. -/
def calcWantHeight (stakeValidationHeight interval height : ℤ) : ℤ :=
  let intervalOffset := stakeValidationHeight.tmod interval
  let adjustedHeight := height - intervalOffset - 1
  (adjustedHeight - (adjustedHeight + 1).tmod interval) + intervalOffset

/-- The errors of `stakeversion.go`. -/
inductive MajorityErr
  | voterVersionMajorityNotFound | stakeVersionMajorityNotFound | notEnoughVotes
  deriving DecidableEq, Repr

/-- The caches of `stakeversion.go`. -/
structure VersionCaches where
  isStakeMajorityVersionCache : ℕ × Hash → Option Bool
  calcPriorStakeVersionCache : Hash → Option ℕ
  calcVoterVersionIntervalCache : Hash → Option ℕ
  calcStakeVersionCache : Hash → Option ℕ

/-- The caches of a new node. -/
def VersionCaches.empty : VersionCaches :=
  ⟨fun _ => none, fun _ => none, fun _ => none, fun _ => none⟩

namespace VersionCaches

variable (c : VersionCaches)

/-- The caches with an answer of `isStakeMajorityVersion`. -/
def setStakeMajority (key : ℕ × Hash) (result : Bool) : VersionCaches :=
  { c with isStakeMajorityVersionCache := update c.isStakeMajorityVersionCache key (some result) }

/-- `b.calcPriorStakeVersionCache[hash] = version`. -/
def setPrior (hash : Hash) (version : ℕ) : VersionCaches :=
  { c with calcPriorStakeVersionCache := update c.calcPriorStakeVersionCache hash (some version) }

/-- `b.calcVoterVersionIntervalCache[hash] = version`. -/
def setVoter (hash : Hash) (version : ℕ) : VersionCaches :=
  { c with
    calcVoterVersionIntervalCache := update c.calcVoterVersionIntervalCache hash (some version) }

/-- The caches with an answer of `calcStakeVersion`. -/
def setStakeVersion (hash : Hash) (version : ℕ) : VersionCaches :=
  { c with calcStakeVersionCache := update c.calcStakeVersionCache hash (some version) }

end VersionCaches

variable (env : Env) (v : VotingParams) (index : Hash → Option Branch)

/-- The votes of a block, as versions and bits. -/
def voteBitsInBlock (block : MsgBlock) : List VoteVersionTuple :=
  (votesIn env block).map fun tx => ⟨sSGenVersion tx, sSGenVoteBits tx⟩

/-- `findStakeVersionPriorNode`: the end of the last full window. -/
def findStakeVersionPriorNode (prevNode : Branch) : Except Err Branch := do
  let prevNode ← toKeyNode env index prevNode
  match prevNode with
  | [] => .error .panic
  | b :: below =>
    let nextHeight : ℤ := b.header.keyHeight + 2
    if nextHeight < env.params.stakeValidationHeight + v.stakeVersionInterval then pure []
    else do
      let wantHeight :=
        calcWantHeight env.params.stakeValidationHeight v.stakeVersionInterval nextHeight
      let node ← keyWalk env index (wantHeight - 1) (b :: below).length (b :: below)
      match node with
      | [] => .error .panic
      | node => pure node

/-- The number of headers that is a majority of a window. -/
def headersRequired : ℕ :=
  v.stakeVersionInterval * v.stakeMajorityMultiplier / v.stakeMajorityDivisor

/-- The number of votes that is a majority of all votes of a window. -/
def votesRequired (totalVotesFound : ℕ) : ℕ :=
  totalVotesFound * v.stakeMajorityMultiplier / v.stakeMajorityDivisor

/-- A version that occurs at least a number of times in a window. The source looks through a map in
no fixed order, which makes no difference where the number is more than half of them
(`majorityOf_perm`). -/
def majorityOf (numRequired : ℕ) (versions : List ℕ) : Option ℕ :=
  versions.find? fun version => numRequired ≤ versions.count version

/-- `isMajorityVersion`, the loop, with the number of nodes that are left. -/
def majorityLoop (minVer : ℤ) (numRequired : ℕ) : ℕ → ℕ → Branch → Except Err ℕ
  | 0, numFound, _ => pure numFound
  | _ + 1, numFound, [] => pure numFound
  | n + 1, numFound, b :: below =>
    if numRequired ≤ numFound then pure numFound
    else do
      let prev ← getPrevKeyNodeFromNode env index (b :: below)
      majorityLoop minVer numRequired n
        (if minVer ≤ b.header.version then numFound + 1 else numFound) prev

/-- `isMajorityVersion`: whether enough of the last key blocks have a version. -/
def isMajorityVersion (minVer : ℤ) (startNode : Branch) (numRequired : ℕ) : Except Err Bool := do
  let numFound ← majorityLoop env index minVer numRequired v.blockUpgradeNumToCheck 0 startNode
  pure (decide (numRequired ≤ numFound))

/-- `isStakeMajorityVersion`: whether the headers of the window before have a majority. -/
def isStakeMajorityVersion (minVer : ℕ) (prevNode : Branch) (c : VersionCaches) :
    Except Err (Bool × VersionCaches) := do
  let node ← findStakeVersionPriorNode env v index prevNode
  if node = [] then pure (decide (minVer ≤ 0), c)
  else match c.isStakeMajorityVersionCache (minVer, nodeHash env node) with
    | some result => pure (result, c)
    | none => do
      let window ← keyWindow env index v.stakeVersionInterval node
      let versionCount := window.countP fun b => minVer ≤ b.header.stakeVersion
      let result := decide (headersRequired v ≤ versionCount)
      pure (result, c.setStakeMajority (minVer, nodeHash env node) result)

/-- `calcPriorStakeVersion`: the version of a majority of these headers. -/
def calcPriorStakeVersion (prevNode : Branch) (c : VersionCaches) :
    Except Err (Except MajorityErr ℕ × VersionCaches) := do
  let node ← findStakeVersionPriorNode env v index prevNode
  if node = [] then pure (.ok 0, c)
  else match c.calcPriorStakeVersionCache (nodeHash env node) with
    | some result => pure (.ok result, c)
    | none => do
      let window ← keyWindow env index v.stakeVersionInterval node
      match majorityOf (headersRequired v) (window.map fun b => b.header.stakeVersion) with
      | some version => pure (.ok version, c.setPrior (nodeHash env node) version)
      | none => pure (.error .stakeVersionMajorityNotFound, c)

/-- The votes of a window. -/
def votesOf (window : List MsgBlock) : List VoteVersionTuple := window.flatMap (voteBitsInBlock env)

/-- The number of votes that a window has at least. -/
def minVotes : ℕ := v.stakeVersionInterval * (env.params.ticketsPerBlock / 2 + 1)

/-- `calcVoterVersionInterval`, what it makes of the versions of the votes. -/
def voterMajority (versions : List ℕ) : Except MajorityErr ℕ :=
  if versions.length < minVotes env v then .error .notEnoughVotes
  else match majorityOf (votesRequired v versions.length) versions with
    | some version => .ok version
    | none => .error .voterVersionMajorityNotFound

/-- `calcVoterVersionInterval`: the version of a majority of the voters of a window. -/
def calcVoterVersionInterval (prevNode : Branch) (c : VersionCaches) :
    Except Err (Except MajorityErr ℕ × VersionCaches) :=
  match c.calcVoterVersionIntervalCache (nodeHash env prevNode) with
  | some result => pure (.ok result, c)
  | none => do
    let iterNode ← toKeyNode env index prevNode
    let window ← keyWindow env index v.stakeVersionInterval iterNode
    let result := voterMajority env v ((votesOf env window).map VoteVersionTuple.version)
    match result with
    | .ok version => pure (.ok version, c.setVoter (nodeHash env prevNode) version)
    | .error e => pure (.error e, c)

/-- `calcVoterVersion`, the loop over windows, newest first. The version zero of the nil node is
that no window has a majority. -/
def voterVersionLoop : ℕ → Branch → VersionCaches → Except Err ((ℕ × Branch) × VersionCaches)
  | _, [], c => pure ((0, []), c)
  | 0, _ :: _, _ => .error .outOfFuel
  | fuel + 1, b :: below, c => do
    let (result, c) ← calcVoterVersionInterval env v index (b :: below) c
    match result with
    | .ok version => pure ((version, b :: below), c)
    | .error .voterVersionMajorityNotFound => do
      let prev ← getPrevKeyNodeFromNode env index (b :: below)
      let prior ← findStakeVersionPriorNode env v index prev
      voterVersionLoop fuel prior c
    | .error _ => pure ((0, []), c)

/-- `calcVoterVersion`: that version of the last window that has one. -/
def calcVoterVersion (prevNode : Branch) (c : VersionCaches) :
    Except Err ((ℕ × Branch) × VersionCaches) := do
  let prevNode ← toKeyNode env index prevNode
  let node ← findStakeVersionPriorNode env v index prevNode
  voterVersionLoop env v index node.length node c

/-- The key height of a node, which is zero for the nil node. -/
def keyHeightOf (node : Branch) : ℕ := (node.head?.map fun b => b.header.keyHeight).getD 0

@[simp]
theorem keyHeightOf_cons (b : MsgBlock) (below : Branch) :
    keyHeightOf (b :: below) = b.header.keyHeight :=
  rfl

/-- `calcStakeVersion`, from the window whose voters have a majority on. -/
def stakeVersionFrom (version : ℕ) (node : Branch) (c : VersionCaches) :
    Except Err (ℕ × VersionCaches) := do
  let startIntervalHeight := calcWantHeight env.params.stakeValidationHeight v.stakeVersionInterval
    (keyHeightOf node + 1) + 1
  let iterNode ← keyWalk env index (startIntervalHeight - 1) node.length node
  if iterNode = [] then pure (0, c)
  else do
    let enforced ← isMajorityVersion env v index 3 iterNode v.blockRejectNumRequired
    if enforced = false then pure (0, c)
    else do
      let (majority, c) ← isStakeMajorityVersion env v index version node c
      if majority then do
        let (prior, c) ← calcPriorStakeVersion env v index node c
        pure (max version (prior.toOption.getD 0), c)
      else pure (version, c)

/-- `calcStakeVersion`: the stake version that the next header should have. -/
def calcStakeVersion (prevNode : Branch) (c : VersionCaches) : Except Err (ℕ × VersionCaches) := do
  match prevNode with
  | [] => .error .panic
  | b :: _ =>
    if b.header.height ≤ 1 then pure (0, c)
    else do
      let prevNode ← toKeyNode env index prevNode
      let ((version, node), c) ← calcVoterVersion env v index prevNode c
      if version = 0 ∨ node = [] then pure (0, c)
      else match c.calcStakeVersionCache (nodeHash env node) with
        | some result => pure (result, c)
        | none => do
          let (result, c) ← stakeVersionFrom env v index version node c
          pure (result, c.setStakeVersion (nodeHash env node) result)

/-! ## What the caches are caches of -/

/-- The first height of the window of a height: windows of `interval` heights, one of which begins
at the stake validation height. -/
def windowStart (stakeValidationHeight interval height : ℕ) : ℕ :=
  height - (height - stakeValidationHeight % interval) % interval

theorem windowStart_le (svh w height : ℕ) : windowStart svh w height ≤ height := Nat.sub_le _ _

variable {w : ℕ} {b : MsgBlock} {below : Branch}

theorem lt_windowStart_add (svh height : ℕ) (hw : 0 < w) :
    height < windowStart svh w height + w := by
  have := Nat.mod_lt (height - svh % w) hw
  unfold windowStart
  omega

theorem windowStart_mod {svh w height : ℕ} (hle : svh % w ≤ height) :
    windowStart svh w height % w = svh % w := by
  obtain ⟨n, rfl⟩ := Nat.exists_eq_add_of_le hle
  have hsplit : windowStart svh w (svh % w + n) = svh % w + w * (n / w) := by
    have := Nat.div_add_mod n w
    unfold windowStart
    rw [Nat.add_sub_cancel_left]
    omega
  rw [hsplit, Nat.add_mul_mod_self_left, Nat.mod_mod]

/-- `calcWantHeight` is the height before the window. -/
theorem calcWantHeight_eq (svh w height : ℕ) (hle : svh % w ≤ height) :
    calcWantHeight svh w height = (windowStart svh w height : ℤ) - 1 := by
  have hmod : ((svh : ℤ).tmod w) = (svh % w : ℕ) := by
    rw [Int.tmod_eq_emod_of_nonneg (Int.natCast_nonneg _), Int.natCast_mod]
  have hrest : ((height : ℤ) - (svh % w : ℕ) - 1 + 1).tmod w = ((height - svh % w) % w : ℕ) := by
    rw [Int.sub_add_cancel, ← Int.ofNat_sub hle, Int.tmod_eq_emod_of_nonneg (Int.natCast_nonneg _),
      Int.natCast_mod]
  have hbound := Nat.mod_le (height - svh % w) w
  unfold calcWantHeight windowStart
  simp only [hmod, hrest]
  omega

/-- After the first window, windows start behind it. -/
theorem le_windowStart {svh w height : ℕ} (hw : 0 < w) (hle : svh + w ≤ height) :
    svh + w ≤ windowStart svh w height := by
  have hmodle := Nat.mod_le svh w
  have hmod : windowStart svh w height % w = svh % w := windowStart_mod (by omega)
  have hlt := lt_windowStart_add svh height hw
  by_contra hnot
  -- Two numbers with the same remainder that are less than `w` apart are equal.
  have hlow : svh < windowStart svh w height := by omega
  have hdvd : w ∣ windowStart svh w height - svh := (Nat.modEq_iff_dvd' hlow.le).1 hmod.symm
  have := Nat.le_of_dvd (by omega) hdvd
  omega

/-- The end of the window of `interval` key blocks before that of the block after a node, nil before
there is one. -/
def windowEnd (interval : ℕ) (node : Branch) : Branch :=
  match lastKey env node with
  | [] => []
  | b :: below =>
    if b.header.keyHeight + 2 < env.params.stakeValidationHeight + interval then []
    else atKeyHeight env ((windowStart env.params.stakeValidationHeight interval
      (b.header.keyHeight + 2) : ℤ) - 2) (b :: below)

/-- The end of the stake version window before the block after a node. -/
def priorNode (node : Branch) : Branch := windowEnd env v.stakeVersionInterval node

/-- The key blocks of the stake version window that ends at a node. -/
def versionWindow (node : Branch) : List MsgBlock := (keys env node).take v.stakeVersionInterval

/-- A majority of the headers of the window that ends at a node have at least a version. -/
def headersMajority (minVer : ℕ) (node : Branch) : Bool :=
  decide (headersRequired v ≤ (versionWindow env v node).countP fun b =>
    minVer ≤ b.header.stakeVersion)

/-- The version of a majority of the headers of the window that ends at a node. -/
def headersVersion (node : Branch) : Option ℕ :=
  majorityOf (headersRequired v) ((versionWindow env v node).map fun b => b.header.stakeVersion)

/-- The version of a majority of the voters of the window that ends at a node. -/
def votersVersion (node : Branch) : Except MajorityErr ℕ :=
  voterMajority env v ((votesOf env (versionWindow env v node)).map VoteVersionTuple.version)

/-- The version of the last window, from that which ends at a node on, whose voters have a majority,
and its end. -/
def lastVotersVersion : ℕ → Branch → ℕ × Branch
  | _, [] => (0, [])
  | 0, _ :: _ => (0, [])
  | fuel + 1, b :: below => match votersVersion env v (b :: below) with
    | .ok version => (version, b :: below)
    | .error .voterVersionMajorityNotFound =>
      lastVotersVersion fuel (priorNode env v (prevKey env (b :: below)))
    | .error _ => (0, [])

/-- A majority of the last key blocks up to a node have at least a block version. -/
def blocksMajority (minVer : ℤ) (node : Branch) (numRequired : ℕ) : Bool :=
  decide (numRequired ≤ ((keys env node).take v.blockUpgradeNumToCheck).countP fun b =>
    minVer ≤ b.header.version)

/-- The first key block of the stake version window that ends at a node. -/
def windowFirst (node : Branch) : Branch :=
  atKeyHeight env ((windowStart env.params.stakeValidationHeight v.stakeVersionInterval
    (keyHeightOf node + 1) : ℤ) - 1) node

/-- Blocks of version three are enforced at the start of the window that ends at a node. -/
def enforced (node : Branch) : Bool :=
  !(windowFirst env v node).isEmpty &&
    blocksMajority env v 3 (windowFirst env v node) v.blockRejectNumRequired

/-- A majority of the headers of the window before the block after a node have at least a
version. -/
def priorMajority (minVer : ℕ) (node : Branch) : Bool :=
  if priorNode env v node = [] then decide (minVer ≤ 0)
  else headersMajority env v minVer (priorNode env v node)

/-- The version of a majority of the headers of the window before the block after a node, or
zero. -/
def priorVersion (node : Branch) : ℕ :=
  if priorNode env v node = [] then 0 else (headersVersion env v (priorNode env v node)).getD 0

/-- The stake version that a window whose voters have a majority leads to. -/
def windowVersion (version : ℕ) (node : Branch) : ℕ :=
  if enforced env v node = false then 0
  else if priorMajority env v version node then max version (priorVersion env v node)
  else version

/-- The version of the last window whose voters have a majority, before the block after a node. -/
def votersVersionBefore (node : Branch) : ℕ × Branch :=
  lastVotersVersion env v (priorNode env v node).length (priorNode env v node)

/-- The stake version of the block after a node. -/
def stakeVersion (node : Branch) : ℕ :=
  if (node.head?.map fun b => b.header.height).getD 0 ≤ 1 then 0
  else if (votersVersionBefore env v node).1 = 0 ∨ (votersVersionBefore env v node).2 = [] then 0
  else windowVersion env v (votersVersionBefore env v node).1 (votersVersionBefore env v node).2

/-- The blocks of a tree, each with its ancestors: a node has one hash, and its key data are
true. -/
structure BlockTree (tree : Set Branch) : Prop where
  suffix : ∀ node ∈ tree, ∀ s, s <:+ node → s ≠ [] → s ∈ tree
  hash_inj : ∀ node ∈ tree, ∀ node' ∈ tree, nodeHash env node = nodeHash env node' → node = node'
  chained : ∀ node ∈ tree, KeyChained env index node

/-- The windows of the voting are long enough, and the first one has key blocks before it. -/
structure SoundWindows : Prop where
  interval_pos : 0 < v.stakeVersionInterval
  two_le : 2 ≤ env.params.stakeValidationHeight

/-- A statement about the nodes of a tree with a hash. -/
def AtHash (tree : Set Branch) (hash : Hash) (P : Branch → Prop) : Prop :=
  ∀ node ∈ tree, nodeHash env node = hash → P node

/-- The caches hold what is computed for the nodes of a tree. -/
structure VersionCaches.Sound (tree : Set Branch) (c : VersionCaches) : Prop where
  stakeMajority : TableSound (fun key result => AtHash env tree key.2 fun node =>
    result = headersMajority env v key.1 node) c.isStakeMajorityVersionCache
  prior : TableSound (fun hash version => AtHash env tree hash fun node =>
    headersVersion env v node = some version) c.calcPriorStakeVersionCache
  voter : TableSound (fun hash version => AtHash env tree hash fun node =>
    votersVersion env v node = .ok version) c.calcVoterVersionIntervalCache
  stakeVersion : TableSound (fun hash result => AtHash env tree hash fun node =>
    ∃ version, votersVersion env v node = .ok version ∧ result = windowVersion env v version node)
    c.calcStakeVersionCache

variable {env v index} {tree : Set Branch} {node : Branch} {c : VersionCaches}

theorem VersionCaches.sound_empty : VersionCaches.empty.Sound env v tree :=
  ⟨tableSound_empty, tableSound_empty, tableSound_empty, tableSound_empty⟩

theorem BlockTree.atHash (ht : BlockTree env index tree) (hnode : node ∈ tree) {P : Branch → Prop}
    (h : P node) : AtHash env tree (nodeHash env node) P := by
  intro node' hnode' hhash
  rwa [ht.hash_inj node' hnode' node hnode hhash]

/-- One branch without two blocks of one hash, whose key data are true, is a tree. -/
theorem blockTree_branchTree {top : Branch}
    (hnodup : (top.map fun b => env.blockHash b.header).Nodup)
    (h : KeyChained env index top) : BlockTree env index (branchTree top) where
  suffix := fun _ hnode _ hs hne => ⟨hs.trans hnode.1, hne⟩
  hash_inj := fun _ hnode _ hnode' hhash => eq_of_nodeHash_eq hnodup hnode hnode' hhash
  chained := fun _ hnode => h.of_suffix hnode.1

/-- A branch with key blocks has a last one. -/
theorem exists_lastKey (hne : keys env node ≠ []) : ∃ b below, lastKey env node = b :: below := by
  cases h : lastKey env node with
  | nil => exact absurd (by rw [← keys_lastKey, h]; rfl) hne
  | cons b below => exact ⟨b, below, rfl⟩

theorem windowEnd_of_lt (hlast : lastKey env node = b :: below)
    (hlt : b.header.keyHeight + 2 < env.params.stakeValidationHeight + w) :
    windowEnd env w node = [] := by
  simp [windowEnd, hlast, hlt]

theorem windowEnd_of_le (hlast : lastKey env node = b :: below)
    (hle : env.params.stakeValidationHeight + w ≤ b.header.keyHeight + 2) :
    windowEnd env w node = atKeyHeight env ((windowStart env.params.stakeValidationHeight w
      (b.header.keyHeight + 2) : ℤ) - 2) (b :: below) := by
  simp [windowEnd, hlast, hle]

/-- The last window that has ended ends at a key block, at a known key height. -/
theorem KeyChained.exists_windowEnd (h : KeyChained env index node) (hw : 0 < w)
    (htwo : 2 ≤ env.params.stakeValidationHeight) (hlast : lastKey env node = b :: below)
    (hle : env.params.stakeValidationHeight + w ≤ b.header.keyHeight + 2) :
    ∃ k rest, windowEnd env w node = k :: rest ∧
      k.header.keyHeight + 2 =
        windowStart env.params.stakeValidationHeight w (b.header.keyHeight + 2) := by
  have hb : KeyChained env index (b :: below) := hlast ▸ h.of_suffix (lastKey_suffix node)
  have hkey : isKey env b = true := keyHead_cons.1 (hlast ▸ keyHead_lastKey node)
  have hstart := le_windowStart hw hle
  have hstart' := windowStart_le env.params.stakeValidationHeight w (b.header.keyHeight + 2)
  obtain ⟨k, rest, hat, hk⟩ := hb.exists_atKeyHeight
    (n := windowStart env.params.stakeValidationHeight w (b.header.keyHeight + 2) - 2)
    (by rw [hb.length_keys hkey]; omega)
  refine ⟨k, rest, ?_, by omega⟩
  rw [windowEnd_of_le hlast hle, ← hat]
  congr 1
  omega

/-- The end of a window is an ancestor. -/
theorem windowEnd_suffix (w : ℕ) (node : Branch) : windowEnd env w node <:+ node := by
  unfold windowEnd
  cases hlast : lastKey env node with
  | nil => exact nil_suffix
  | cons b below =>
    dsimp only
    split_ifs
    · exact nil_suffix
    · exact (atKeyHeight_suffix _ _).trans (hlast ▸ lastKey_suffix node)

/-- The end of a window is a key block. -/
theorem keyHead_windowEnd (w : ℕ) (node : Branch) : KeyHead env (windowEnd env w node) := by
  unfold windowEnd
  cases hlast : lastKey env node with
  | nil => simp [KeyHead]
  | cons b below =>
    dsimp only
    split_ifs
    · simp [KeyHead]
    · exact keyHead_atKeyHeight _ _

theorem priorNode_suffix (node : Branch) : priorNode env v node <:+ node := windowEnd_suffix _ node

theorem keyHead_priorNode (node : Branch) : KeyHead env (priorNode env v node) :=
  keyHead_windowEnd _ node

/-- `findStakeVersionPriorNode` finds the end of the window before. -/
theorem KeyChained.findStakeVersionPriorNode (h : KeyChained env index node)
    (hw : SoundWindows env v) (hne : keys env node ≠ []) :
    findStakeVersionPriorNode env v index node = .ok (priorNode env v node) := by
  obtain ⟨b, below, hlast⟩ := exists_lastKey hne
  have hb : KeyChained env index (b :: below) := hlast ▸ h.of_suffix (lastKey_suffix node)
  have hhead : KeyHead env (b :: below) := hlast ▸ keyHead_lastKey node
  have htoKey : toKeyNode env index node = .ok (b :: below) := by
    cases node with
    | nil => simp [Voting.lastKey] at hlast
    | cons a rest => rw [h.toNamed.toKeyNode, hlast]
  rw [Voting.findStakeVersionPriorNode, htoKey]
  change (if _ then _ else _) = _
  by_cases hlt : b.header.keyHeight + 2 < env.params.stakeValidationHeight + v.stakeVersionInterval
  · rw [if_pos (by exact_mod_cast hlt), priorNode, windowEnd_of_lt hlast hlt]
    rfl
  · obtain ⟨k, rest, hprior, -⟩ := h.exists_windowEnd hw.interval_pos hw.two_le hlast (not_lt.1 hlt)
    have hwant : calcWantHeight env.params.stakeValidationHeight v.stakeVersionInterval
        ((b.header.keyHeight : ℤ) + 2) - 1 = (windowStart env.params.stakeValidationHeight
          v.stakeVersionInterval (b.header.keyHeight + 2) : ℤ) - 2 := by
      have hmod := Nat.mod_le env.params.stakeValidationHeight v.stakeVersionInterval
      have := calcWantHeight_eq env.params.stakeValidationHeight v.stakeVersionInterval
        (b.header.keyHeight + 2) (by omega)
      push_cast at this
      omega
    rw [if_neg (by exact_mod_cast hlt), hwant, hb.toNamed.keyWalk hhead _ le_rfl, priorNode,
      ← windowEnd_of_le hlast (not_lt.1 hlt), hprior]
    rfl

/-- The loop stops at the required number or at the end of the blocks. -/
theorem Named.majorityLoop (h : Named env index node) (hhead : KeyHead env node) (minVer : ℤ)
    (numRequired n numFound : ℕ) :
    ∃ r, majorityLoop env index minVer numRequired n numFound node = .ok r ∧
      (numRequired ≤ r ↔ numRequired ≤ numFound + ((keys env node).take n).countP fun b =>
        minVer ≤ b.header.version) := by
  induction n generalizing node numFound with
  | zero => exact ⟨numFound, rfl, by simp⟩
  | succ n ih =>
    cases node with
    | nil => exact ⟨numFound, rfl, by simp⟩
    | cons b below =>
      rw [Voting.majorityLoop, keys_cons_of_key (keyHead_cons.1 hhead), take_succ_cons, countP_cons]
      by_cases hfound : numRequired ≤ numFound
      · rw [if_pos hfound]
        exact ⟨numFound, rfl, by omega⟩
      · rw [if_neg hfound, h.getPrevKeyNodeFromNode, ok_bind]
        obtain ⟨r, hr, hiff⟩ := ih h.tail.lastKey (keyHead_lastKey below)
          (if minVer ≤ b.header.version then numFound + 1 else numFound)
        rw [keys_lastKey] at hiff
        refine ⟨r, hr, hiff.trans ?_⟩
        by_cases hversion : minVer ≤ b.header.version <;> simp [hversion]
        omega

/-- `isMajorityVersion` counts the last key blocks. -/
theorem Named.isMajorityVersion (h : Named env index node) (hhead : KeyHead env node) (minVer : ℤ)
    (numRequired : ℕ) :
    isMajorityVersion env v index minVer node numRequired =
      .ok (blocksMajority env v minVer node numRequired) := by
  obtain ⟨r, hr, hiff⟩ := h.majorityLoop hhead minVer numRequired v.blockUpgradeNumToCheck 0
  rw [Voting.isMajorityVersion, hr, ok_bind, blocksMajority]
  simp only [hiff, Nat.zero_add]
  rfl

theorem KeyChained.keys_prevKey_ne_nil (h : KeyChained env index (b :: below))
    (hpos : 0 < b.header.keyHeight) :
    keys env (prevKey env (b :: below)) ≠ [] := by
  rw [h.keyHeight b below (suffix_refl _), length_pos_iff] at hpos
  rwa [prevKey, tail_cons, keys_lastKey]

/-- A node is nil or not before the end of the first window. -/
def AfterFirstWindow (env : Env) (v : VotingParams) (node : Branch) : Prop :=
  ∀ b ∈ node.head?, env.params.stakeValidationHeight + v.stakeVersionInterval ≤
    b.header.keyHeight + 2

theorem KeyChained.afterFirstWindow_priorNode (h : KeyChained env index node)
    (hw : SoundWindows env v) :
    AfterFirstWindow env v (priorNode env v node) := by
  intro b hb
  cases hlast : lastKey env node with
  | nil =>
    rw [priorNode, windowEnd, hlast] at hb
    exact absurd hb (by simp)
  | cons a below =>
    by_cases hlt :
      a.header.keyHeight + 2 < env.params.stakeValidationHeight + v.stakeVersionInterval
    · rw [priorNode, windowEnd_of_lt hlast hlt] at hb
      exact absurd hb (by simp)
    · obtain ⟨k, rest, hprior, hk⟩ :=
        h.exists_windowEnd hw.interval_pos hw.two_le hlast (not_lt.1 hlt)
      rw [priorNode, hprior] at hb
      obtain rfl := Option.some.inj hb
      rw [hk]
      exact le_windowStart hw.interval_pos (not_lt.1 hlt)

theorem AfterFirstWindow.keyHeight_pos (hw : SoundWindows env v)
    (h : AfterFirstWindow env v (b :: below)) : 0 < b.header.keyHeight := by
  have := h b rfl
  have := hw.two_le
  have := hw.interval_pos
  omega

theorem priorNode_lastKey (node : Branch) :
    priorNode env v (lastKey env node) = priorNode env v node := by
  rw [priorNode, windowEnd, (keyHead_lastKey node).lastKey_eq, priorNode, windowEnd]

theorem KeyHead.keys_ne_nil (hhead : KeyHead env node) (hne : node ≠ []) : keys env node ≠ [] := by
  obtain ⟨b, below, rfl⟩ := exists_cons_of_ne_nil hne
  rw [keys_cons_of_key (keyHead_cons.1 hhead)]
  exact cons_ne_nil _ _

theorem BlockTree.priorNode_mem (ht : BlockTree env index tree) (hnode : node ∈ tree) :
    priorNode env v node = [] ∨ priorNode env v node ∈ tree :=
  or_iff_not_imp_left.2 (ht.suffix _ hnode _ (priorNode_suffix _))

/-- The caches do not change what the voters of a window chose. -/
theorem BlockTree.calcVoterVersionInterval (ht : BlockTree env index tree) (hnode : node ∈ tree)
    (hhead : KeyHead env node) (hne : node ≠ []) (hc : c.Sound env v tree) :
    ∃ c', calcVoterVersionInterval env v index node c = .ok (votersVersion env v node, c') ∧
    c'.Sound env v tree := by
  rw [Voting.calcVoterVersionInterval]
  cases hcache : c.calcVoterVersionIntervalCache (nodeHash env node) with
  | some version =>
    refine ⟨c, ?_, hc⟩
    rw [hc.voter _ _ hcache _ hnode rfl]
    rfl
  | none =>
    obtain ⟨b, below, rfl⟩ := exists_cons_of_ne_nil hne
    have hnamed := (ht.chained _ hnode).toNamed
    rw [hnamed.toKeyNode, hhead.lastKey_eq, ok_bind, hnamed.keyWindow hhead, ok_bind]
    cases hversion : votersVersion env v (b :: below) with
    | ok version =>
      refine ⟨c.setVoter (nodeHash env (b :: below)) version, ?_,
        { hc with voter := hc.voter.update (ht.atHash hnode hversion) }⟩
      rw [votersVersion, versionWindow] at hversion
      rw [hversion]
      rfl
    | error e =>
      refine ⟨c, ?_, hc⟩
      rw [votersVersion, versionWindow] at hversion
      rw [hversion]
      rfl

section Tree

variable (ht : BlockTree env index tree) (hw : SoundWindows env v)

include ht hw

/-- The caches do not change the majority of a window. -/
theorem BlockTree.isStakeMajorityVersion (hnode : node ∈ tree) (hne : keys env node ≠ [])
    (hc : c.Sound env v tree) (minVer : ℕ) :
    ∃ c', isStakeMajorityVersion env v index minVer node c =
      .ok (priorMajority env v minVer node, c') ∧
      c'.Sound env v tree := by
  rw [Voting.isStakeMajorityVersion, priorMajority,
    (ht.chained node hnode).findStakeVersionPriorNode hw hne, ok_bind]
  by_cases hnil : priorNode env v node = []
  · rw [if_pos hnil, if_pos hnil]
    exact ⟨c, rfl, hc⟩
  · rw [if_neg hnil, if_neg hnil]
    have hprior := ht.suffix node hnode _ (priorNode_suffix node) hnil
    cases hcache : c.isStakeMajorityVersionCache (minVer, nodeHash env (priorNode env v node)) with
    | some result =>
      refine ⟨c, ?_, hc⟩
      rw [← hc.stakeMajority _ _ hcache _ hprior rfl]
      rfl
    | none =>
      refine ⟨c.setStakeMajority (minVer, nodeHash env (priorNode env v node))
        (headersMajority env v minVer (priorNode env v node)), ?_,
        { hc with stakeMajority := hc.stakeMajority.update (ht.atHash hprior rfl) }⟩
      rw [(ht.chained _ hprior).toNamed.keyWindow (keyHead_priorNode node)]
      rfl

/-- The caches do not change the version before. -/
theorem BlockTree.calcPriorStakeVersion (hnode : node ∈ tree) (hne : keys env node ≠ [])
    (hc : c.Sound env v tree) :
    ∃ r c', calcPriorStakeVersion env v index node c = .ok (r, c') ∧ c'.Sound env v tree ∧
      r.toOption.getD 0 = priorVersion env v node := by
  rw [Voting.calcPriorStakeVersion, priorVersion,
    (ht.chained node hnode).findStakeVersionPriorNode hw hne, ok_bind]
  by_cases hnil : priorNode env v node = []
  · rw [if_pos hnil, if_pos hnil]
    exact ⟨.ok 0, c, rfl, hc, rfl⟩
  · rw [if_neg hnil, if_neg hnil]
    have hprior := ht.suffix node hnode _ (priorNode_suffix node) hnil
    cases hcache : c.calcPriorStakeVersionCache (nodeHash env (priorNode env v node)) with
    | some result =>
      refine ⟨.ok result, c, rfl, hc, ?_⟩
      rw [hc.prior _ _ hcache _ hprior rfl]
      rfl
    | none =>
      rw [(ht.chained _ hprior).toNamed.keyWindow (keyHead_priorNode node), ok_bind]
      cases hversion : headersVersion env v (priorNode env v node) with
      | some version =>
        refine ⟨.ok version, c.setPrior (nodeHash env (priorNode env v node)) version, ?_,
          { hc with prior := hc.prior.update (ht.atHash hprior hversion) }, rfl⟩
        rw [headersVersion, versionWindow] at hversion
        rw [hversion]
        rfl
      | none =>
        refine ⟨.error .stakeVersionMajorityNotFound, c, ?_, hc, rfl⟩
        rw [headersVersion, versionWindow] at hversion
        rw [hversion]
        rfl

/-- A window that decides the stake version: its voters have a majority. -/
structure Decides (env : Env) (v : VotingParams) (tree : Set Branch) (version : ℕ)
    (window : Branch) : Prop where
  mem : window ∈ tree
  head : KeyHead env window
  after : AfterFirstWindow env v window
  voters : votersVersion env v window = .ok version

/-- With enough fuel the loop finds the last window with a majority. -/
theorem BlockTree.voterVersionLoop {fuel : ℕ} (hnode : node = [] ∨ node ∈ tree)
    (hhead : KeyHead env node)
    (hafter : AfterFirstWindow env v node) (hfuel : node.length ≤ fuel) (hc : c.Sound env v tree) :
    ∃ c' version window, voterVersionLoop env v index fuel node c = .ok ((version, window), c') ∧
      lastVotersVersion env v fuel node = (version, window) ∧ c'.Sound env v tree ∧
      (window ≠ [] → Decides env v tree version window) := by
  induction fuel generalizing node c with
  | zero =>
    obtain rfl := length_eq_zero_iff.1 (Nat.le_zero.1 hfuel)
    exact ⟨c, 0, [], rfl, rfl, hc, fun hne => absurd rfl hne⟩
  | succ fuel ih =>
    cases node with
    | nil => exact ⟨c, 0, [], rfl, rfl, hc, fun hne => absurd rfl hne⟩
    | cons b below =>
      have hmem := hnode.resolve_left (cons_ne_nil _ _)
      have hchained := ht.chained _ hmem
      obtain ⟨c1, hinterval, hc1⟩ := ht.calcVoterVersionInterval hmem hhead (cons_ne_nil _ _) hc
      rw [Voting.voterVersionLoop, hinterval, ok_bind, lastVotersVersion]
      cases hversion : votersVersion env v (b :: below) with
      | ok version =>
        exact ⟨c1, version, _, rfl, rfl, hc1, fun _ => ⟨hmem, hhead, hafter, hversion⟩⟩
      | error e =>
        cases e with
        | stakeVersionMajorityNotFound | notEnoughVotes =>
          exact ⟨c1, 0, [], rfl, rfl, hc1, fun hne => absurd rfl hne⟩
        | voterVersionMajorityNotFound =>
          have hkeys := hchained.keys_prevKey_ne_nil (AfterFirstWindow.keyHeight_pos hw hafter)
          have hsuffix : prevKey env (b :: below) <:+ b :: below :=
            (lastKey_suffix below).trans (suffix_cons b below)
          have hprevMem := ht.suffix _ hmem _ hsuffix fun hnil => hkeys (by rw [hnil]; rfl)
          have hprev := ht.chained _ hprevMem
          dsimp only
          rw [hchained.toNamed.getPrevKeyNodeFromNode, ok_bind]
          change ∃ c' version window,
            (findStakeVersionPriorNode env v index (prevKey env (b :: below)) >>= _) = _ ∧ _
          rw [hprev.findStakeVersionPriorNode hw hkeys, ok_bind]
          refine ih (ht.priorNode_mem hprevMem) (keyHead_priorNode _)
            (hprev.afterFirstWindow_priorNode hw) ?_ hc1
          have hle : (priorNode env v (prevKey env (b :: below))).length ≤
              (prevKey env (b :: below)).length := (priorNode_suffix _).length_le
          have hle' : (prevKey env (b :: below)).length ≤ below.length :=
            (lastKey_suffix below).length_le
          rw [length_cons] at hfuel
          omega

/-- The version that follows from a window. -/
theorem BlockTree.stakeVersionFrom (hnode : node ∈ tree) (hhead : KeyHead env node)
    (hafter : AfterFirstWindow env v node) (hne : node ≠ []) (hc : c.Sound env v tree)
    (version : ℕ) :
    ∃ c', stakeVersionFrom env v index version node c = .ok (windowVersion env v version node, c') ∧
      c'.Sound env v tree := by
  obtain ⟨b, below, rfl⟩ := exists_cons_of_ne_nil hne
  have hnamed := (ht.chained _ hnode).toNamed
  have hkeys := hhead.keys_ne_nil hne
  have hstart : calcWantHeight env.params.stakeValidationHeight v.stakeVersionInterval
      ((b.header.keyHeight : ℤ) + 1) + 1 - 1 = (windowStart env.params.stakeValidationHeight
        v.stakeVersionInterval (b.header.keyHeight + 1) : ℤ) - 1 := by
    have hmod := Nat.mod_le env.params.stakeValidationHeight v.stakeVersionInterval
    have hle := hafter b rfl
    have hpos := hw.interval_pos
    have := calcWantHeight_eq env.params.stakeValidationHeight v.stakeVersionInterval
      (b.header.keyHeight + 1) (by omega)
    push_cast at this
    omega
  have hwalk :
      keyWalk env index (calcWantHeight env.params.stakeValidationHeight v.stakeVersionInterval
      ((b.header.keyHeight : ℤ) + 1) + 1 - 1) (b :: below).length (b :: below) =
        .ok (windowFirst env v (b :: below)) := by
    rw [hstart]
    exact hnamed.keyWalk hhead _ le_rfl
  rw [Voting.stakeVersionFrom, keyHeightOf_cons, hwalk, ok_bind, windowVersion, enforced]
  by_cases hnil : windowFirst env v (b :: below) = []
  · rw [if_pos hnil, if_pos (by simp [hnil])]
    exact ⟨c, rfl, hc⟩
  have hfirst : Named env index (windowFirst env v (b :: below)) :=
    hnamed.of_suffix (atKeyHeight_suffix _ _)
  rw [if_neg hnil, hfirst.isMajorityVersion (keyHead_atKeyHeight _ _), ok_bind,
    isEmpty_eq_false_iff.2 hnil, Bool.not_false, Bool.true_and]
  by_cases henforced :
    blocksMajority env v 3 (windowFirst env v (b :: below)) v.blockRejectNumRequired = false
  · rw [if_pos henforced, if_pos henforced]
    exact ⟨c, rfl, hc⟩
  rw [if_neg henforced, if_neg henforced]
  obtain ⟨c1, hmajority, hc1⟩ := ht.isStakeMajorityVersion hw hnode hkeys hc version
  rw [hmajority, ok_bind]
  by_cases hmaj : priorMajority env v version (b :: below) = true
  · obtain ⟨prior, c2, hprior, hc2, heq⟩ := ht.calcPriorStakeVersion hw hnode hkeys hc1
    refine ⟨c2, ?_, hc2⟩
    simp only [if_pos hmaj]
    rw [hprior, ok_bind, ← heq]
    rfl
  · simp only [if_neg hmaj]
    exact ⟨c1, rfl, hc1⟩

/-- `calcVoterVersion` from sound caches. -/
theorem BlockTree.calcVoterVersion (hnode : node ∈ tree) (hhead : KeyHead env node)
    (hne : node ≠ []) (hc : c.Sound env v tree) :
    ∃ c' version window, calcVoterVersion env v index node c = .ok ((version, window), c') ∧
      votersVersionBefore env v node = (version, window) ∧ c'.Sound env v tree ∧
      (window ≠ [] → Decides env v tree version window) := by
  have hkeys := hhead.keys_ne_nil hne
  obtain ⟨b, below, rfl⟩ := exists_cons_of_ne_nil hne
  have hchained := ht.chained _ hnode
  rw [Voting.calcVoterVersion, hchained.toNamed.toKeyNode, hhead.lastKey_eq, ok_bind,
    hchained.findStakeVersionPriorNode hw hkeys, ok_bind]
  exact ht.voterVersionLoop hw (ht.priorNode_mem hnode) (keyHead_priorNode _)
    (hchained.afterFirstWindow_priorNode hw) le_rfl hc

/-- `calcStakeVersion` computes the stake version, and leaves caches that are sound. -/
theorem BlockTree.calcStakeVersion (hnode : node ∈ tree) (hne : keys env node ≠ [])
    (hc : c.Sound env v tree) :
    ∃ c', calcStakeVersion env v index node c = .ok (stakeVersion env v node, c') ∧
    c'.Sound env v tree := by
  have hnil : node ≠ [] := fun h => hne (by rw [h]; rfl)
  obtain ⟨b, below, rfl⟩ := exists_cons_of_ne_nil hnil
  have hchained := ht.chained _ hnode
  obtain ⟨k, rest, hlast⟩ := exists_lastKey hne
  have hlastNil : lastKey env (b :: below) ≠ [] := hlast ▸ cons_ne_nil _ _
  have hlastMem := ht.suffix _ hnode _ (lastKey_suffix _) hlastNil
  rw [Voting.calcStakeVersion, stakeVersion, head?_cons, Option.map_some, Option.getD_some]
  by_cases hheight : b.header.height ≤ 1
  · rw [if_pos hheight, if_pos hheight]
    exact ⟨c, rfl, hc⟩
  obtain ⟨c1, version, window, hvoter, hbefore, hc1, hdecides⟩ :=
    ht.calcVoterVersion hw hlastMem (keyHead_lastKey _) hlastNil hc
  rw [votersVersionBefore, priorNode_lastKey, ← votersVersionBefore] at hbefore
  rw [if_neg hheight, if_neg hheight, hchained.toNamed.toKeyNode, ok_bind, hvoter, hbefore, ok_bind]
  by_cases hzero : version = 0 ∨ window = []
  · simp only [if_pos hzero]
    exact ⟨c1, rfl, hc1⟩
  simp only [if_neg hzero]
  obtain ⟨hwindow, hhead, hafter, hversion⟩ := hdecides (not_or.1 hzero).2
  cases hcache : c1.calcStakeVersionCache (nodeHash env window) with
  | some result =>
    obtain ⟨version', hversion', rfl⟩ := hc1.stakeVersion _ _ hcache _ hwindow rfl
    obtain rfl : version' = version := Except.ok.inj (hversion'.symm.trans hversion)
    exact ⟨c1, rfl, hc1⟩
  | none =>
    obtain ⟨c2, hfrom, hc2⟩ :=
      ht.stakeVersionFrom hw hwindow hhead hafter (not_or.1 hzero).2 hc1 version
    refine ⟨c2.setStakeVersion (nodeHash env window) (windowVersion env v version window), ?_,
      { hc2 with stakeVersion :=
        hc2.stakeVersion.update (ht.atHash hwindow ⟨version, hversion, rfl⟩) }⟩
    rw [hfrom, ok_bind]
    rfl

end Tree

end Hcashd.Blockchain.Voting
