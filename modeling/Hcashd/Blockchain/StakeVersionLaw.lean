import Hcashd.Blockchain.KeyWindows
import Hcashd.Blockchain.Ballot

/-!
# The stake version from window to window

The stake version that is asked for goes back to the last window whose voters had a majority. That
it does not go back with it is left to the headers of that window: a majority of them has to carry
the version of the windows before. The checks that would make them do so, and that would keep the
block version of three once a majority of the blocks has it, are commented out in
`checkBlockHeaderContext`.

`votersPeak` is the highest version of all windows that have ended. Where every key block carries it
(`CarriesPeak`), the stake version is this number, so that it is the same in one window and never
goes back.
-/

namespace Hcashd.Blockchain.Voting

open Lib Stake List

variable (env : Env) (v : VotingParams)

/-- The highest version that a majority of the voters had in one of the windows that have ended and
in which blocks of version three are enforced. -/
def votersPeak : Branch → ℕ
  | [] => 0
  | b :: below =>
    if priorNode env v (b :: below) = b :: below ∧ enforced env v (b :: below) = true then
      max ((votersVersion env v (b :: below)).toOption.getD 0) (votersPeak below)
    else votersPeak below

/-- A key block has the block version of a majority of the key blocks before it, and the stake
version of the windows before it. If it ends a window, the voters of this window do not go back to
version zero. -/
def CarriesPeak (below : Branch) (b : MsgBlock) : Prop :=
  isKey env b = true →
    (blocksMajority env v 3 below v.blockRejectNumRequired = true → 3 ≤ b.header.version) ∧
    b.header.stakeVersion = votersPeak env v below ∧
    (priorNode env v (b :: below) = b :: below →
      (votersVersion env v (b :: below)).toOption = some 0 →
      votersPeak env v below = 0)

instance (below : Branch) (b : MsgBlock) : Decidable (CarriesPeak env v below b) :=
  inferInstanceAs (Decidable (_ → _))

/-- A branch of blocks with enough votes, true heights and the versions of the windows before
them. -/
structure PeakCarried (index : Hash → Option Branch) (node : Branch) : Prop extends
    KeyChained env index node where
  carries : ∀ b below, b :: below <:+ node → below ≠ [] → CarriesPeak env v below b
  votes : ∀ b ∈ keys env node, env.params.stakeValidationHeight ≤ b.header.keyHeight + 1 →
    env.params.ticketsPerBlock / 2 + 1 ≤ (votesIn env b).length
  height : ∀ b below, b :: below <:+ node → b.header.height = below.length

/-- The windows of the stake version: their headers can be a majority, a majority of the headers or
of the voters is more than half of them, and the first window ends above height one. -/
structure SoundVersions : Prop extends SoundWindows env v where
  majority : headersRequired v ≤ v.stakeVersionInterval
  headers_half : v.stakeVersionInterval < 2 * headersRequired v
  voters_half : ∀ n, minVotes env v ≤ n → n < 2 * votesRequired v n
  first : 4 ≤ env.params.stakeValidationHeight + v.stakeVersionInterval

variable {env v} {index : Hash → Option Branch} {node anc : Branch} {b : MsgBlock} {below : Branch}

/-- Ancestors carry the peak. -/
theorem PeakCarried.of_suffix (h : PeakCarried env v index node) (hs : anc <:+ node) :
    PeakCarried env v index anc where
  toKeyChained := h.toKeyChained.of_suffix hs
  carries := fun b below hb => h.carries b below (hb.trans hs)
  votes := fun b hb => h.votes b ((hs.sublist.filter _).subset hb)
  height := fun b below hb => h.height b below (hb.trans hs)

/-! ## The highest version of the voters -/

theorem votersPeak_cons_of_same (hsame : priorNode env v (b :: below) = priorNode env v below) :
    votersPeak env v (b :: below) = votersPeak env v below := by
  rw [votersPeak, if_neg]
  rintro ⟨hend, -⟩
  have hlen : (priorNode env v below).length ≤ below.length := (priorNode_suffix below).length_le
  rw [← hsame, hend, length_cons] at hlen
  omega

/-- The peak of the voters only grows. -/
theorem votersPeak_le_of_suffix (hs : anc <:+ node) :
    votersPeak env v anc ≤ votersPeak env v node := by
  refine suffix_induction hs le_rfl fun b below _ _ ih => ih.trans ?_
  rw [votersPeak]
  split_ifs
  · exact le_max_right _ _
  · exact le_rfl

theorem KeyChained.votersPeak_priorNode (h : KeyChained env index node) (hw : SoundWindows env v) :
    votersPeak env v (priorNode env v node) = votersPeak env v node := by
  induction node with
  | nil => rfl
  | cons b below ih =>
    obtain hsame | ⟨hend, -⟩ := h.windowEnd_cons hw.two_le hw.interval_pos
    · calc votersPeak env v (priorNode env v (b :: below))
          = votersPeak env v (priorNode env v below) := by rw [priorNode, hsame, priorNode]
        _ = votersPeak env v below := ih (h.of_suffix (suffix_cons b below))
        _ = votersPeak env v (b :: below) := (votersPeak_cons_of_same hsame).symm
    · rw [priorNode, hend]

/-- Blocks of one window have one peak. -/
theorem KeyChained.votersPeak_eq_of_windowIndex_eq (h : KeyChained env index node)
    (hw : SoundWindows env v) (hs : anc <:+ node)
    (hsame : windowIndex env.params.stakeValidationHeight v.stakeVersionInterval
      (nextHeight env anc) =
      windowIndex env.params.stakeValidationHeight v.stakeVersionInterval (nextHeight env node)) :
    votersPeak env v anc = votersPeak env v node := by
  have hend : priorNode env v anc = priorNode env v node :=
    h.windowEnd_eq_of_windowIndex_eq hw.two_le hw.interval_pos hs hsame
  calc votersPeak env v anc = votersPeak env v (priorNode env v anc) :=
        ((h.of_suffix hs).votersPeak_priorNode hw).symm
    _ = votersPeak env v (priorNode env v node) := by rw [hend]
    _ = votersPeak env v node := h.votersPeak_priorNode hw

/-! ## One window -/

variable {a block : MsgBlock} {st st' : ChainState} {adjustedTime : ℤ}
  {P : ChainState → MsgBlock → Prop}

theorem exists_suffix_of_mem_keys (ha : a ∈ keys env node) :
    isKey env a = true ∧ ∃ rest, a :: rest <:+ node := by
  obtain ⟨hmem, hkey⟩ := mem_filter.1 ha
  obtain ⟨above, rest, rfl⟩ := append_of_mem hmem
  exact ⟨hkey, rest, suffix_append above _⟩

theorem KeyChained.keyHeight_versionWindow (h : KeyChained env index (b :: below))
    (hkey : isKey env b = true) (ha : a ∈ versionWindow env v (b :: below)) :
    a ∈ keys env (b :: below) ∧
    b.header.keyHeight + 1 ≤ a.header.keyHeight + v.stakeVersionInterval ∧
      a.header.keyHeight ≤ b.header.keyHeight := by
  have hlen := h.length_keys hkey
  rw [versionWindow, h.take_keys_eq, mem_filter, decide_eq_true_eq, hlen] at ha
  have hlt := h.keyHeight_lt ha.1
  exact ⟨ha.1, ha.2, by omega⟩

section Window

variable (h : PeakCarried env v index (b :: below)) (hw : SoundWindows env v)
  (hend : priorNode env v (b :: below) = b :: below)

include h hw hend

/-- A window is full. -/
theorem PeakCarried.length_versionWindow :
    (versionWindow env v (b :: below)).length = v.stakeVersionInterval := by
  have htwo := hw.two_le
  obtain ⟨hkey, hfirst, -⟩ := h.windowStart_of_windowEnd hw.two_le hend
  rw [versionWindow, length_take, h.length_keys hkey]
  omega

/-- The blocks of a window carry the peak before it. -/
theorem PeakCarried.stakeVersion_of_mem (ha : a ∈ versionWindow env v (b :: below)) :
    a.header.stakeVersion = votersPeak env v below := by
  obtain ⟨hkey, hfirst, hstart⟩ := h.windowStart_of_windowEnd hw.two_le hend
  have htwo := hw.two_le
  obtain ⟨hmem, hlow, hle⟩ := h.keyHeight_versionWindow hkey ha
  obtain ⟨hakey, rest, hs⟩ := exists_suffix_of_mem_keys hmem
  have hrest := h.keyHeight a rest hs
  have hbelow := h.keyHeight b below (suffix_refl _)
  have hne : rest ≠ [] := by
    rintro rfl
    rw [keys_nil, length_nil] at hrest
    omega
  have hsame :=
    windowIndex_eq_of_windowStart hw.interval_pos ((Nat.mod_le _ _).trans (by omega)) hstart
    (show _ ≤ a.header.keyHeight + 1 + v.stakeVersionInterval by omega) (by omega)
  rw [((h.carries a rest hs hne) hakey).2.1]
  obtain heq | hs := suffix_cons_iff.1 hs
  · rw [(cons.inj heq).2]
  · refine (h.toKeyChained.of_suffix (suffix_cons b below)).votersPeak_eq_of_windowIndex_eq hw
      ((suffix_cons a rest).trans hs) ?_
    rw [nextHeight, nextHeight, ← hrest, ← hbelow]
    exact hsame

theorem PeakCarried.minVotes_le :
    minVotes env v ≤
      ((votesOf env (versionWindow env v (b :: below))).map VoteVersionTuple.version).length := by
  have htwo := hw.two_le
  obtain ⟨hkey, hfirst, -⟩ := h.windowStart_of_windowEnd hw.two_le hend
  have hsum := card_nsmul_le_sum ((versionWindow env v (b :: below)).map fun b =>
    (voteBitsInBlock env b).length) (env.params.ticketsPerBlock / 2 + 1) fun n hn => by
      obtain ⟨a, ha, rfl⟩ := mem_map.1 hn
      obtain ⟨hmem, hlow, -⟩ := h.keyHeight_versionWindow hkey ha
      rw [voteBitsInBlock, length_map]
      exact h.votes a hmem (by omega)
  rw [length_map, h.length_versionWindow hw hend, smul_eq_mul] at hsum
  rw [minVotes, length_map, votesOf, length_flatMap]
  exact hsum

/-- A window has a majority, or says that it has none. -/
theorem PeakCarried.votersVersion_cases :
    (∃ version, votersVersion env v (b :: below) = .ok version) ∨
      votersVersion env v (b :: below) = .error .voterVersionMajorityNotFound := by
  rw [votersVersion, voterMajority, if_neg (not_lt.2 (h.minVotes_le hw hend))]
  cases majorityOf _ _ with
  | some version => exact .inl ⟨version, rfl⟩
  | none => exact .inr rfl

end Window

/-- Two versions share the votes. -/
theorem count_add_count_le {version version' : ℕ} (hne : version ≠ version') (versions : List ℕ) :
    versions.count version + versions.count version' ≤ versions.length := by
  induction versions with
  | nil => exact Nat.le_refl 0
  | cons a versions ih =>
    rw [count_cons, count_cons, length_cons]
    simp only [beq_iff_eq]
    split_ifs <;> omega

/-- Where a majority is more than half, it is that of one version. -/
theorem majorityOf_eq_some_iff {numRequired version : ℕ} {versions : List ℕ}
    (hhalf : versions.length < 2 * numRequired) :
    majorityOf numRequired versions = some version ↔ numRequired ≤ versions.count version := by
  have hfound : ∀ found, majorityOf numRequired versions = some found →
      numRequired ≤ versions.count found := by
    intro found hfind
    simpa using find?_some (hfind : find? _ _ = _)
  refine ⟨hfound version, fun hle => ?_⟩
  have hmem : version ∈ versions := count_pos_iff.1 (by omega)
  have hsome : (majorityOf numRequired versions).isSome :=
    find?_isSome.2 ⟨version, hmem, decide_eq_true hle⟩
  obtain ⟨found, hfind⟩ := Option.isSome_iff_exists.1 hsome
  have hle' := hfound found hfind
  obtain rfl : version = found := by
    by_contra hne
    have := count_add_count_le hne versions
    omega
  exact hfind

/-- The order in which versions are looked at does not matter. -/
theorem majorityOf_perm {numRequired : ℕ} {versions versions' : List ℕ}
    (hperm : versions ~ versions') (hhalf : versions.length < 2 * numRequired) :
    majorityOf numRequired versions = majorityOf numRequired versions' := by
  refine Option.ext fun version => ?_
  rw [majorityOf_eq_some_iff hhalf, majorityOf_eq_some_iff (hperm.length_eq ▸ hhalf),
    hperm.count_eq]

/-- The version of the voters does not depend on the order of their votes. -/
theorem SoundVersions.voterMajority_perm (hv : SoundVersions env v) {versions versions' : List ℕ}
    (hperm : versions ~ versions') :
    voterMajority env v versions = voterMajority env v versions' := by
  rw [voterMajority, voterMajority, hperm.length_eq]
  split_ifs with hfew
  · rfl
  · have hhalf := hv.voters_half _ (not_lt.1 hfew)
    rw [← hperm.length_eq] at hhalf ⊢
    rw [majorityOf_perm hperm hhalf]

/-- What a window adds to the version. -/
theorem PeakCarried.windowVersion_eq (h : PeakCarried env v index (b :: below))
    (hv : SoundVersions env v) (hend : priorNode env v (b :: below) = b :: below) (version : ℕ) :
    windowVersion env v version (b :: below) =
      if enforced env v (b :: below) = true then max version (votersPeak env v below) else 0 := by
  have hlen := h.length_versionWindow hv.toSoundWindows hend
  have hheaders : (versionWindow env v (b :: below)).map (fun b => b.header.stakeVersion) =
      replicate v.stakeVersionInterval (votersPeak env v below) := by
    refine eq_replicate_iff.2 ⟨by rw [length_map, hlen], fun version hversion => ?_⟩
    obtain ⟨a, ha, rfl⟩ := mem_map.1 hversion
    exact h.stakeVersion_of_mem hv.toSoundWindows hend ha
  have hprior : priorVersion env v (b :: below) = votersPeak env v below := by
    rw [priorVersion, hend, if_neg (cons_ne_nil _ _), headersVersion, hheaders,
      (majorityOf_eq_some_iff (by simpa using hv.headers_half)).2
        (hv.majority.trans_eq (count_replicate_self ..).symm)]
    rfl
  rw [windowVersion, hprior]
  cases henforced : enforced env v (b :: below) with
  | false => rfl
  | true =>
    rw [if_neg (by decide), if_pos rfl]
    by_cases hle : version ≤ votersPeak env v below
    · -- All headers have at least the version of the voters.
      have hmajority : priorMajority env v version (b :: below) = true := by
        rw [priorMajority, hend, if_neg (cons_ne_nil _ _), headersMajority, decide_eq_true_eq]
        rw [countP_eq_length.2 fun a ha => ?_, hlen]
        · exact hv.majority
        · rw [h.stakeVersion_of_mem hv.toSoundWindows hend ha]
          exact decide_eq_true hle
      rw [if_pos hmajority]
    · rw [max_eq_left (not_le.1 hle).le, ite_self]

/-! ## Blocks of version three -/

theorem PeakCarried.blocksMajority_of_suffix (h : PeakCarried env v index node) (hs : anc <:+ node)
    (hne : anc ≠ []) (hmajority : blocksMajority env v 3 anc v.blockRejectNumRequired = true) :
    blocksMajority env v 3 node v.blockRejectNumRequired = true := by
  refine suffix_induction hs hmajority fun b below hb hs hbelow => ?_
  cases hkey : isKey env b with
  | false => rwa [blocksMajority, keys_cons_of_micro hkey]
  | true =>
    have hversion := (h.carries b below hb (hs.ne_nil hne) hkey).1 hbelow
    rw [blocksMajority, decide_eq_true_eq] at hbelow ⊢
    rw [keys_cons_of_key hkey]
    cases hn : v.blockUpgradeNumToCheck with
    | zero => simpa [hn] using hbelow
    | succ n =>
      -- The new key block counts, and at most one key block is no longer looked at.
      rw [hn] at hbelow
      rw [take_succ_cons, countP_cons_of_pos (by simpa using hversion)]
      have hdrop : ((keys env below).take (n + 1)).countP (fun b => decide (3 ≤ b.header.version)) ≤
          ((keys env below).take n).countP (fun b => decide (3 ≤ b.header.version)) + 1 := by
        rw [take_add_one, countP_append]
        refine Nat.add_le_add_left (countP_le_length.trans ?_) _
        cases (keys env below)[n]? <;> simp
      omega

theorem KeyChained.windowFirst_suffix (h : KeyChained env index (b :: below))
    (hw : SoundWindows env v)
    (hkey : isKey env b = true) {rest : Branch} (hs : a :: rest <:+ b :: below)
    (hakey : isKey env a = true)
    (hafter : env.params.stakeValidationHeight ≤ a.header.keyHeight + 1) :
    windowFirst env v (a :: rest) <:+ windowFirst env v (b :: below) := by
  have ha := h.of_suffix hs
  have hle : a.header.keyHeight ≤ b.header.keyHeight := by
    have hlen : (keys env (a :: rest)).length ≤ (keys env (b :: below)).length :=
      length_keys_le_of_suffix hs
    rw [ha.length_keys hakey, h.length_keys hkey] at hlen
    omega
  have hmono : windowStart env.params.stakeValidationHeight v.stakeVersionInterval
      (a.header.keyHeight + 1) ≤ windowStart env.params.stakeValidationHeight v.stakeVersionInterval
        (b.header.keyHeight + 1) :=
    windowStart_mono hw.interval_pos ((Nat.mod_le _ _).trans hafter) (by omega)
  have hstart :=
    windowStart_le env.params.stakeValidationHeight v.stakeVersionInterval (a.header.keyHeight + 1)
  rw [windowFirst, windowFirst, keyHeightOf_cons, keyHeightOf_cons,
    ← h.atKeyHeight_of_suffix hs (by rw [ha.length_keys hakey]; omega),
    ← atKeyHeight_atKeyHeight (Int.sub_le_sub_right (Int.ofNat_le.2 hmono) 1)]
  exact atKeyHeight_suffix _ _

/-- The peak was enforced by some window. -/
theorem exists_enforced_of_votersPeak (hpos : votersPeak env v node ≠ 0) :
    ∃ a rest, a :: rest <:+ node ∧ priorNode env v (a :: rest) = a :: rest ∧
    enforced env v (a :: rest) = true := by
  induction node with
  | nil => exact absurd rfl hpos
  | cons b below ih =>
    by_cases hend : priorNode env v (b :: below) = b :: below ∧ enforced env v (b :: below) = true
    · exact ⟨b, below, suffix_refl _, hend.1, hend.2⟩
    · rw [votersPeak, if_neg hend] at hpos
      obtain ⟨a, rest, hs, h⟩ := ih hpos
      exact ⟨a, rest, hs.trans (suffix_cons b below), h⟩

theorem PeakCarried.votersPeak_of_not_enforced (h : PeakCarried env v index (b :: below))
    (hw : SoundWindows env v) (hkey : isKey env b = true)
    (hnot : enforced env v (b :: below) = false) :
    votersPeak env v below = 0 := by
  by_contra hpos
  obtain ⟨a, rest, hs, hend, henforced⟩ := exists_enforced_of_votersPeak hpos
  have hs' := hs.trans (suffix_cons b below)
  have htwo := hw.two_le
  have hpos := hw.interval_pos
  obtain ⟨hakey, hfirst, -⟩ := (h.of_suffix hs').windowStart_of_windowEnd hw.two_le hend
  have hwindows : _ <:+ windowFirst env v (b :: below) :=
    h.windowFirst_suffix hw hkey hs' hakey (by omega)
  rw [enforced, Bool.and_eq_true, Bool.not_eq_true', isEmpty_eq_false_iff] at henforced
  have hmajority :=
    (h.of_suffix (atKeyHeight_suffix _ _)).blocksMajority_of_suffix hwindows henforced.1 henforced.2
  rw [enforced, windowFirst, hmajority, Bool.and_true, Bool.not_eq_false', List.isEmpty_iff] at hnot
  exact hwindows.ne_nil henforced.1 hnot

/-! ## The stake version -/

theorem lastVotersVersion_of_le {fuel fuel' : ℕ} (hfuel : node.length ≤ fuel)
    (hfuel' : node.length ≤ fuel') :
    lastVotersVersion env v fuel node = lastVotersVersion env v fuel' node := by
  induction fuel generalizing node fuel' with
  | zero =>
    obtain rfl := length_eq_zero_iff.1 (Nat.le_zero.1 hfuel)
    cases fuel' <;> rfl
  | succ fuel ih =>
    cases node with
    | nil => cases fuel' <;> rfl
    | cons b below =>
      obtain ⟨m, rfl⟩ := Nat.exists_eq_add_of_le' (Nat.succ_le_of_lt (Nat.lt_of_lt_of_le
        (Nat.succ_pos below.length) hfuel'))
      have hle : (priorNode env v (prevKey env (b :: below))).length ≤ below.length :=
        (priorNode_suffix _).length_le.trans (lastKey_suffix below).length_le
      rw [length_cons] at hfuel hfuel'
      rw [lastVotersVersion, lastVotersVersion, ih (by omega) (show _ ≤ m by omega)]

/-- The stake version, from the last window whose voters have a majority. -/
def versionOf (env : Env) (v : VotingParams) (found : ℕ × Branch) : ℕ :=
  if found.1 = 0 ∨ found.2 = [] then 0 else windowVersion env v found.1 found.2

/-- The last version of the voters is their peak. -/
theorem PeakCarried.versionOf_eq (h : PeakCarried env v index node) (hv : SoundVersions env v) :
    versionOf env v (votersVersionBefore env v node) = votersPeak env v node := by
  have hw := hv.toSoundWindows
  induction node with
  | nil => rfl
  | cons b below ih =>
    have hbelow := ih (h.of_suffix (suffix_cons b below))
    obtain hsame | ⟨hend, hkey⟩ := h.windowEnd_cons hw.two_le hw.interval_pos
    · rw [votersPeak_cons_of_same hsame, ← hbelow, votersVersionBefore, votersVersionBefore,
        priorNode, hsame]
      rfl
    have hend : priorNode env v (b :: below) = b :: below := hend
    rw [votersVersionBefore, hend, length_cons, lastVotersVersion]
    obtain ⟨version, hversion⟩ | hnone := h.votersVersion_cases hw hend
    · rw [hversion]
      cases henforced : enforced env v (b :: below) with
      | false =>
        rw [votersPeak, if_neg fun h => by simp [henforced] at h,
          h.votersPeak_of_not_enforced hw hkey henforced, versionOf,
          h.windowVersion_eq hv hend, henforced]
        exact ite_self 0
      | true =>
        rw [votersPeak, if_pos ⟨hend, henforced⟩, hversion, versionOf, h.windowVersion_eq hv hend,
          henforced, if_pos rfl]
        by_cases hzero : version = 0
        · -- Voters with version zero: the stake version is zero, and was zero before.
          subst hzero
          have hne : below ≠ [] := by
            rintro rfl
            have hfirst := (h.windowStart_of_windowEnd hw.two_le hend).2.1
            have hkeyHeight := h.keyHeight b [] (suffix_refl _)
            rw [keys_nil, length_nil] at hkeyHeight
            have hsound := hv.first
            omega
          rw [if_pos (.inl rfl),
            (h.carries b below (suffix_refl _) hne hkey).2.2 hend (by rw [hversion]; rfl)]
          rfl
        · rw [if_neg (not_or.2 ⟨hzero, cons_ne_nil _ _⟩)]
          rfl
    · -- Without a majority the loop goes on in the window before.
      have hpeak : votersPeak env v (b :: below) = votersPeak env v below := by
        have hmax : max
            ((Except.error .voterVersionMajorityNotFound : Except MajorityErr ℕ).toOption.getD 0)
            (votersPeak env v below) = votersPeak env v below := Nat.zero_max _
        rw [votersPeak, hnone, hmax, ite_self]
      have hprior : priorNode env v (prevKey env (b :: below)) = priorNode env v below := by
        rw [priorNode, windowEnd, prevKey, tail_cons, (keyHead_lastKey below).lastKey_eq]
        rfl
      rw [hnone, hpeak, ← hbelow, votersVersionBefore]
      rw [hprior, lastVotersVersion_of_le (priorNode_suffix below).length_le le_rfl]

/-- The version that a block must carry is the peak of the voters. -/
theorem PeakCarried.stakeVersion_eq (h : PeakCarried env v index node) (hv : SoundVersions env v) :
    stakeVersion env v node = votersPeak env v node := by
  rw [stakeVersion]
  split_ifs with hlow hzero
  · -- No window ends up to height one.
    by_contra hne
    obtain ⟨a, rest, hs, hend, -⟩ := exists_enforced_of_votersPeak (Ne.symm hne)
    obtain ⟨-, hfirst, -⟩ := (h.of_suffix hs).windowStart_of_windowEnd hv.two_le hend
    have hkeyHeight := h.keyHeight a rest hs
    have hle : (keys env rest).length ≤ rest.length := length_filter_le _ _
    have hlen := hs.length_le
    have hsound := hv.first
    cases node with
    | nil => exact absurd hlen (by simp)
    | cons b below =>
      have hheight := h.height b below (suffix_refl _)
      simp only [head?_cons, Option.map_some, Option.getD_some, length_cons] at hlow hlen
      omega
  · rw [← h.versionOf_eq hv, versionOf, if_pos hzero]
  · rw [← h.versionOf_eq hv, versionOf, if_neg hzero]

/-! ## Accepted chains -/

theorem branchOf_of_processBlock
    (h : processBlock env st adjustedTime block = .ok st') :
    branchOf st' = block :: branchOf st := by
  obtain ⟨steps⟩ := acceptSteps_of_processBlock h
  rw [steps.state_eq]
  rfl

/-- What holds of every block that is accepted and the branch below it holds of all blocks of an
accepted chain but the genesis block. -/
theorem forall_branchOf_of_accepted {Q : MsgBlock → Branch → Prop}
    (hstep : ∀ st st' adjustedTime block, P st block →
      processBlock env st adjustedTime block = .ok st' →
      Q block (branchOf st)) (hst : Accepted env P st) :
    ∀ b below, b :: below <:+ branchOf st → below ≠ [] → Q b below := by
  induction hst with
  | genesis =>
    refine forall_suffix_cons_iff.2 ⟨fun hne => absurd rfl hne, forall_suffix_nil⟩
  | @block st st' adjustedTime block _ hP hprocess ih =>
    rw [branchOf_of_processBlock hprocess]
    exact forall_suffix_cons_iff.2 ⟨fun _ => hstep st st' adjustedTime block hP hprocess, ih⟩

theorem height_of_accepted (hgenesis : env.params.genesisBlock.header.height = 0)
    (hst : Accepted env P st) :
    ∀ b below, b :: below <:+ branchOf st → b.header.height = below.length := by
  induction hst with
  | genesis => exact forall_suffix_cons_iff.2 ⟨hgenesis, forall_suffix_nil⟩
  | @block st st' adjustedTime block _ hP hprocess ih =>
    rw [branchOf_of_processBlock hprocess]
    refine forall_suffix_cons_iff.2 ⟨?_, ih⟩
    obtain ⟨steps⟩ := acceptSteps_of_processBlock hprocess
    rw [height_of_checkBlockContext steps.context, ih _ _ (suffix_refl _)]
    rfl

/-- Every accepted chain carries the peak. -/
theorem peakCarried_of_accepted (hchained : KeyChained env index (branchOf st))
    (htwo : 2 ≤ env.params.stakeValidationHeight)
    (hgenesis : env.params.genesisBlock.header.height = 0)
    (hst : Accepted env (fun st block => CarriesPeak env v (branchOf st) block) st) :
    PeakCarried env v index (branchOf st) where
  toKeyChained := hchained
  carries := forall_branchOf_of_accepted (fun _ _ _ _ hcarries _ => hcarries) hst
  votes := by
    intro b hb hlate
    obtain ⟨hkey, rest, hs⟩ := exists_suffix_of_mem_keys hb
    have hne : rest ≠ [] := by
      rintro rfl
      have hkeyHeight := hchained.keyHeight b [] hs
      rw [keys_nil, length_nil] at hkeyHeight
      omega
    refine forall_branchOf_of_accepted (Q := fun b _ => isKey env b = true →
        env.params.stakeValidationHeight ≤ b.header.keyHeight + 1 →
          env.params.ticketsPerBlock / 2 + 1 ≤ (votesIn env b).length)
      (fun _ _ _ _ _ h hkey hlate => ?_) hst b rest hs hne hkey hlate
    obtain ⟨steps⟩ := acceptSteps_of_processBlock h
    have hvoters := ((stakeSane_of_checkKeyBlock hkey steps.check.checkKey).ballot hlate).voters
    have hvotes := (steps.sane.votes hkey).1
    rw [countTxType_sSGen, countP_eq_length_filter] at hvotes
    exact hvoters.trans_eq hvotes.symm
  height := height_of_accepted hgenesis hst

/-- The branch of an accepted chain is a tree that the walks can read. -/
theorem blockTree_of_accepted (hgenesis : env.params.genesisBlock.header.prevKeyBlock = 0)
    (hst : Accepted env P st)
    (hzero : ∀ b ∈ branchOf st, isKey env b = true → env.blockHash b.header ≠ 0)
    (hkeyHeight : ∀ b below, b :: below <:+ branchOf st →
      b.header.keyHeight = (keys env below).length) :
    BlockTree env (branchIndex env (branchOf st)) (branchTree (branchOf st)) := by
  have hnodup : ((branchOf st).map fun b => env.blockHash b.header).Nodup :=
    nodup_branchOf_of_accepted hgenesis hst
  exact blockTree_branchTree hnodup
    ⟨named_of_accepted hgenesis hzero (branchIndex_indexed hnodup) hst, hkeyHeight⟩

/-- On an accepted chain whose blocks carry the versions of the windows before them, the value of
`calcStakeVersion` is the same in one window, and never goes back. -/
theorem calcStakeVersion_monotone {tree : Set Branch} {st : ChainState} (hv : SoundVersions env v)
    (hgenesis : env.params.genesisBlock.header.height = 0)
    (hst : Accepted env (fun st block => CarriesPeak env v (branchOf st) block) st)
    (ht : BlockTree env index tree) (hmem : branchOf st ∈ tree) :
    ∃ version : Branch → ℕ,
      (∀ node, node <:+ branchOf st → keys env node ≠ [] → ∀ c : VersionCaches, c.Sound env v tree →
        ∃ c', calcStakeVersion env v index node c = .ok (version node, c') ∧ c'.Sound env v tree) ∧
      ∀ node, node <:+ branchOf st → ∀ anc, anc <:+ node →
        (windowIndex env.params.stakeValidationHeight v.stakeVersionInterval (nextHeight env anc) =
            windowIndex env.params.stakeValidationHeight v.stakeVersionInterval
              (nextHeight env node) →
          version anc = version node) ∧
        version anc ≤ version node := by
  have hcarried := peakCarried_of_accepted (ht.chained _ hmem) hv.two_le hgenesis hst
  refine ⟨votersPeak env v, fun node hs hkeys c hc => ?_, fun node hs anc hanc =>
    ⟨fun hsame => ?_, ?_⟩⟩
  · rw [← (hcarried.of_suffix hs).stakeVersion_eq hv]
    refine ht.calcStakeVersion hv.toSoundWindows (ht.suffix _ hmem node hs ?_) hkeys hc
    rintro rfl
    exact hkeys rfl
  · exact (ht.chained _ hmem |>.of_suffix hs).votersPeak_eq_of_windowIndex_eq hv.toSoundWindows
      hanc hsame
  · exact votersPeak_le_of_suffix hanc

/-! ## Voters that go back -/

/-- A network on which tickets are bought in the second key block and vote from the fourth on. -/
def versionEnv : Env := sampleEnv { sampleParams with
  baseSubsidy := 0
  ticketsPerBlock := 1
  ticketMaturity := 1
  stakeEnabledHeight := 2
  stakeValidationHeight := 4
  blockOneLedger := replicate 6 ⟨replicate 20 1, 10⟩ }

/-- Windows of two key blocks, without agendas. -/
def versionWindows : VotingParams where
  ticketPoolSize := 10
  stakeDiffWindowSize := 2
  stakeVersionInterval := 2
  stakeMajorityMultiplier := 1
  stakeMajorityDivisor := 1
  blockUpgradeNumToCheck := 2
  blockRejectNumRequired := 2
  ruleChangeActivationQuorum := 1
  ruleChangeActivationMultiplier := 3
  ruleChangeActivationDivisor := 4
  ruleChangeActivationInterval := 2
  deployments := fun _ => []
  mainNet := false

/-- A ticket, bought with an output of the first block. -/
def ticketTx (id output : ℕ) : MsgTx where
  version := id
  txIn := [spend 10 output 0 10 1 0]
  txOut := [⟨10, 0, [0xba] ++ replicate 25 0⟩,
    ⟨0, 0, [0x6a, 0x1e] ++ replicate 20 1 ++ leBytes 8 10 ++ [0, 0]⟩,
    ⟨0, 0, [0xbd] ++ replicate 25 0⟩]
  lockTime := 0
  expiry := 0

/-- A vote of a ticket for the key block of a nonce, with a version. -/
def voteTx (id ticket nonce version : ℕ) : MsgTx where
  version := id
  txIn := [⟨⟨0, MaxPrevOutIndex, TxTreeRegular⟩, MaxTxInSequenceNum, 0, 0, NullBlockIndex, [0, 0]⟩,
    spend ticket 0 1 10 2 (ticket - 100)]
  txOut := [⟨0, 0, [0x6a, 0x28] ++ leBytes 32 nonce ++ leBytes 4 nonce ++ leBytes 4 (nonce - 1)⟩,
    ⟨0, 0, [0x6a, 0x06] ++ leBytes 2 1 ++ leBytes 4 version⟩,
    ⟨10, 0, [0xbb, 0, 0, 0] ++ replicate 20 1⟩]
  lockTime := 0
  expiry := 0

/-- A key block of version three at a height. -/
def versionBlock (height : ℕ) (header : BlockHeader → BlockHeader) (sTransactions : List MsgTx) :
    MsgBlock :=
  blockOf versionEnv
    (header { sampleHeader height (height - 1) height (height - 1) (height - 1) with version := 3 })
    [coinbaseTx (height * 10) 0 [payTo 9 0, payTo 2 0],
      coinbaseTx (height * 10 + 1) 0 [heightOut height, payTo 2 0]]
    sTransactions

/-- A key block with one vote, whose header carries a stake version. -/
def votedBlock (height ticket poolSize version stakeVersion : ℕ) : MsgBlock :=
  versionBlock height (fun header => { header with
      poolSize := poolSize
      finalState := [143, 215, 32, 6, 116, 39]
      voters := 1
      stakeVersion := stakeVersion })
    [voteTx (height * 10 + 2) ticket (height - 1) version]

/-- Seven key blocks: the voters of the first window have version five, those of the second one
version four. The headers of the second window carry a stake version. -/
def versionBlocks (stakeVersion : ℕ) : List (ℤ × MsgBlock) :=
  [(10, blockOf versionEnv { sampleHeader 1 0 1 10000 0 with version := 3 }
      [coinbaseTx 10 60 (replicate 6 (payTo 1 10)), coinbaseTx 11 0 [payTo 2 0]] []),
    (10, versionBlock 2 (fun header => { header with freshStake := 6 })
      ((range 6).map fun i => ticketTx (100 + i) i)),
    (10, versionBlock 3 id []), (10, votedBlock 4 102 6 5 0), (10, votedBlock 5 101 5 5 0),
    (10, votedBlock 6 104 4 4 stakeVersion), (10, votedBlock 7 105 3 4 stakeVersion)]

/-- The sample windows are sound. -/
theorem soundVersions_versionWindows : SoundVersions versionEnv versionWindows where
  interval_pos := by decide
  two_le := by decide
  majority := by decide
  headers_half := by decide
  voters_half := fun n hn => by
    have htwo : 2 ≤ n := hn
    simp only [votesRequired, versionWindows]
    omega
  first := by decide

/-- The headers of the second window carry the version of the first one. -/
theorem calcStakeVersion_monotone_versionBlocks : ∃ st,
    processBlocks versionEnv (fun st block =>
      CarriesPeak versionEnv versionWindows (branchOf st) block)
      (genesisState versionEnv) (versionBlocks 5) = .ok st ∧
    ∃ version : Branch → ℕ,
    (∀ node, node <:+ branchOf st → keys versionEnv node ≠ [] → ∀ c : VersionCaches,
        c.Sound versionEnv versionWindows (branchTree (branchOf st)) →
        ∃ c', calcStakeVersion versionEnv versionWindows
          (branchIndex versionEnv (branchOf st)) node c =
            .ok (version node, c') ∧
          c'.Sound versionEnv versionWindows (branchTree (branchOf st))) ∧
      ∀ node, node <:+ branchOf st → ∀ anc, anc <:+ node →
        (windowIndex 4 2 (nextHeight versionEnv anc) =
          windowIndex 4 2 (nextHeight versionEnv node) →
          version anc = version node) ∧
        version anc ≤ version node := by
  have haccepted :
      Accepted versionEnv (fun st block =>
        CarriesPeak versionEnv versionWindows (branchOf st) block) _ :=
    accepted_valueOf _ (versionBlocks 5) (by decide +kernel)
  exact ⟨_, eq_ok_valueOf _, calcStakeVersion_monotone soundVersions_versionWindows rfl haccepted
    (blockTree_of_accepted rfl haccepted (by decide +kernel) (by decide +kernel))
    ⟨suffix_refl _, cons_ne_nil _ _⟩⟩

/-- The headers of the second window carry version zero, and are accepted: after the first window
the stake version is five, after the second one it is four. -/
theorem exists_calcStakeVersion_lt : ∃ st,
    Accepted versionEnv (fun _ _ => True) st ∧ SoundVersions versionEnv versionWindows ∧
    BlockTree versionEnv (branchIndex versionEnv (branchOf st)) (branchTree (branchOf st)) ∧
    (calcStakeVersion versionEnv versionWindows (branchIndex versionEnv (branchOf st))
      ((branchOf st).drop 2) VersionCaches.empty).map Prod.fst = .ok 5 ∧
    (calcStakeVersion versionEnv versionWindows (branchIndex versionEnv (branchOf st))
      (branchOf st) VersionCaches.empty).map Prod.fst = .ok 4 := by
  have haccepted : Accepted versionEnv (fun _ _ => True) _ :=
    accepted_valueOf _ (versionBlocks 0) (by decide +kernel)
  exact ⟨_, haccepted, soundVersions_versionWindows,
    blockTree_of_accepted rfl haccepted (by decide +kernel)
      (by decide +kernel), by decide +kernel, by decide +kernel⟩

end Hcashd.Blockchain.Voting
