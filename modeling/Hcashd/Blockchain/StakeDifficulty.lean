import Hcashd.Blockchain.ThresholdState
import Hcashd.Blockchain.BlockRun

/-!
# The ticket price

`difficulty.go`: the price that a block on top of a node has to ask for its tickets
(`calcNextRequiredStakeDifficulty`). On top of a key block it is computed from key blocks only. On
top of a micro block it is what the header of the micro block says, which is compared with nothing
when the micro block is accepted. The formula of the price is over unbounded integers, but its
result is taken from the low 64 bits before it is limited (`ticketPriceFormula_iff`).
-/

namespace Hcashd.Blockchain.Voting

open Lib Stake List

/-- The agenda of the algorithm for the stake difficulty. -/
def voteIDSDiffAlgorithm : String := "sdiffalgorithm"

variable (env : Env) (v : VotingParams) (index : Hash → Option Branch)

/-- The loop of `estimateSupply` over the reductions of the subsidy: the supply, and the subsidy
after them. -/
def supplyLoop : ℕ → ℤ × ℤ → ℤ × ℤ
  | 0, acc => acc
  | n + 1, (supply, subsidy) => supplyLoop n
    (int64 (supply + int64 (env.params.subsidyReductionInterval * subsidy)),
      (int64 (subsidy * env.params.mulSubsidy)).tdiv env.params.divSubsidy)

/-- `estimateSupply`: an estimate of the coins at a height. -/
def estimateSupply (height : ℤ) : ℤ :=
  if height ≤ 0 then 0
  else
    let reductions := (height.tdiv env.params.subsidyReductionInterval).toNat
    let (supply, subsidy) :=
      supplyLoop env reductions (env.params.blockOneSubsidy, env.params.baseSubsidy)
    let rest := int64 ((1 + height.tmod env.params.subsidyReductionInterval) * subsidy)
    int64 (int64 (supply + rest) - int64 (env.params.baseSubsidy * 2))

/-- `sumPurchasedTickets`: the tickets bought in the last key blocks. -/
def sumPurchasedTickets (startNode : Branch) (numToSum : ℕ) : Except Err ℤ := do
  let window ← keyWindow env index numToSum startNode
  pure (window.map fun b => (b.header.freshStake : ℤ)).sum

/-- `calcNextStakeDiffV2`. The products are big integers. -/
def calcNextStakeDiffV2 (nextHeight curDiff prevPoolSizeAll curPoolSizeAll : ℤ) : ℤ :=
  let targetPoolSizeAll : ℤ :=
    env.params.ticketsPerBlock * (v.ticketPoolSize + env.params.ticketMaturity)
  let nextDiff :=
    int64 (curDiff * curPoolSizeAll * curPoolSizeAll / prevPoolSizeAll / targetPoolSizeAll)
  let maximumStakeDiff := (estimateSupply env nextHeight).tdiv v.ticketPoolSize
  let nextDiff := if maximumStakeDiff < nextDiff then maximumStakeDiff else nextDiff
  if nextDiff < env.params.minimumStakeDiff then env.params.minimumStakeDiff else nextDiff

/-- The part of `calcNextRequiredStakeDifficultyV2` at the end of an interval, for a key block. -/
def retargetStakeDiff (curNode : Branch) (nextHeight curDiff curPoolSize : ℤ) : Except Err ℤ := do
  let prevRetargetNode ← ancestorKeyNode env index curNode (nextHeight - v.stakeDiffWindowSize - 1)
  let prevPoolSize : ℤ := (prevRetargetNode.head?.map fun b => (b.header.poolSize : ℤ)).getD 0
  let prevImmatureTickets ← sumPurchasedTickets env index prevRetargetNode env.params.ticketMaturity
  if prevPoolSize + prevImmatureTickets = 0 then pure curDiff
  else do
    let immatureTickets ← sumPurchasedTickets env index curNode env.params.ticketMaturity
    pure (calcNextStakeDiffV2 env v nextHeight curDiff (prevPoolSize + prevImmatureTickets)
      (curPoolSize + immatureTickets))

/-- `calcNextRequiredStakeDifficultyV2`: the price from the pool and the purchases. -/
def calcNextRequiredStakeDifficultyV2 : Branch → Except Err ℤ
  | [] => pure env.params.minimumStakeDiff
  | b :: below =>
    let nextHeight := b.header.keyHeight + 2
    if nextHeight < env.params.coinbaseMaturity + 1 then pure env.params.minimumStakeDiff
    else if nextHeight % v.stakeDiffWindowSize ≠ 0 ∨ isKey env b = false then pure b.header.sBits
    else retargetStakeDiff env v index (b :: below) nextHeight b.header.sBits b.header.poolSize

/-- The version of the agenda of the algorithm. -/
def sdiffAlgoDeploymentVersion : ℕ := if v.mainNet then 4 else 5

/-- `calcNextRequiredStakeDifficulty`. The state of the agenda makes no difference. -/
def calcNextRequiredStakeDifficulty (curNode : Branch) (c : Caches) : Except Err (ℤ × Caches) := do
  let (_, c) ←
    deploymentState env v index curNode (sdiffAlgoDeploymentVersion v) voteIDSDiffAlgorithm c
  let price ← calcNextRequiredStakeDifficultyV2 env v index curNode
  pure (price, c)

/-! ## The price as a function of the key blocks -/

/-- What the price reads of a key block. -/
structure KeyContent where
  keyHeight : ℕ
  sBits : ℤ
  poolSize : ℕ
  freshStake : ℕ
  deriving DecidableEq, Repr

/-- What the price reads of a key block. -/
def keyContent (b : MsgBlock) : KeyContent :=
  ⟨b.header.keyHeight, b.header.sBits, b.header.poolSize, b.header.freshStake⟩

/-- What the price reads of the key blocks of a branch, newest first. -/
def keyContents (node : Branch) : List KeyContent := (keys env node).map keyContent

/-- What a header says that the price is. -/
def statedPrice (b : MsgBlock) : ℤ :=
  if b.header.keyHeight + 2 < env.params.coinbaseMaturity + 1 then env.params.minimumStakeDiff
  else b.header.sBits

/-- The tickets that the last key blocks bought. -/
def purchased (contents : List KeyContent) : ℤ :=
  ((contents.take env.params.ticketMaturity).map fun k => (k.freshStake : ℤ)).sum

/-- The key blocks from a key height on that is counted from one, none if it is not reached. -/
def contentsAt (keyheight : ℤ) : List KeyContent → Except Err (List KeyContent)
  | [] => .error .panic
  | k :: rest =>
    if (k.keyHeight : ℤ) + 1 < keyheight ∨ keyheight < 0 then .ok []
    else match (k :: rest).dropWhile fun k => decide (keyheight - 1 < k.keyHeight) with
      | [] => .error .other
      | contents => .ok contents

/-- The price at the end of an interval. -/
def retargetPrice (contents : List KeyContent) (k : KeyContent) : Except Err ℤ := do
  let prev ← contentsAt ((k.keyHeight : ℤ) + 2 - v.stakeDiffWindowSize - 1) contents
  let prevPoolSizeAll := (prev.head?.map fun k => (k.poolSize : ℤ)).getD 0 + purchased env prev
  if prevPoolSizeAll = 0 then pure k.sBits
  else pure (calcNextStakeDiffV2 env v (k.keyHeight + 2) k.sBits prevPoolSizeAll
    (k.poolSize + purchased env contents))

/-- The price after key blocks, and after the genesis block as long as there is no key block. -/
def keyPrice : List KeyContent → Except Err ℤ
  | [] => .ok (statedPrice env env.params.genesisBlock)
  | k :: rest =>
    if k.keyHeight + 2 < env.params.coinbaseMaturity + 1 then .ok env.params.minimumStakeDiff
    else if (k.keyHeight + 2) % v.stakeDiffWindowSize ≠ 0 then .ok k.sBits
    else retargetPrice env v (k :: rest) k

variable {env v index} {node : Branch}

/-- The tickets bought in the last key blocks. -/
theorem Named.sumPurchasedTickets (h : Named env index node) (hhead : KeyHead env node) :
    sumPurchasedTickets env index node env.params.ticketMaturity =
      .ok (purchased env (keyContents env node)) := by
  rw [Voting.sumPurchasedTickets, h.keyWindow hhead, ok_bind, purchased, keyContents,
    ← map_take, map_map]
  rfl

variable {b : MsgBlock} {below : Branch}

theorem keyContents_cons_of_key (hkey : isKey env b = true) :
    keyContents env (b :: below) = keyContent b :: keyContents env below := by
  rw [keyContents, keys_cons_of_key hkey]
  rfl

theorem keyHeight_keyContent (b : MsgBlock) : (keyContent b).keyHeight = b.header.keyHeight := rfl

theorem KeyHead.head?_keyContents (hhead : KeyHead env node) :
    (keyContents env node).head? = node.head?.map keyContent := by
  cases node with
  | nil => rfl
  | cons b below => rw [keyContents_cons_of_key (keyHead_cons.1 hhead)]; rfl

theorem keyContents_atKeyHeight (keyHeight : ℤ) (node : Branch) :
    keyContents env (atKeyHeight env keyHeight node) =
      (keyContents env node).dropWhile fun k => decide (keyHeight < k.keyHeight) := by
  rw [keyContents, keys_atKeyHeight, keyContents, dropWhile_map]
  rfl

/-- The ancestor, in terms of the key blocks. -/
theorem Named.ancestorKeyNode_keyContents (h : Named env index (b :: below))
    (hkey : isKey env b = true) (keyheight : ℤ) :
    (∃ e, Voting.ancestorKeyNode env index (b :: below) keyheight = .error e ∧
      contentsAt keyheight (keyContents env (b :: below)) = .error e) ∨
    ∃ prev, Voting.ancestorKeyNode env index (b :: below) keyheight = .ok prev ∧
    Named env index prev ∧
      KeyHead env prev ∧ contentsAt keyheight (keyContents env (b :: below)) =
        .ok (keyContents env prev) := by
  have hdrop : keyContents env (atKeyHeight env (keyheight - 1) (b :: below)) = _ :=
    keyContents_atKeyHeight (keyheight - 1) (b :: below)
  rw [h.ancestorKeyNode (lastKey_cons_of_key hkey)]
  rw [keyContents_cons_of_key hkey] at hdrop ⊢
  rw [contentsAt, ← hdrop, keyHeight_keyContent]
  by_cases hout : (b.header.keyHeight : ℤ) + 1 < keyheight ∨ keyheight < 0
  · rw [if_pos hout, if_pos hout]
    exact .inr ⟨[], rfl, h.of_suffix nil_suffix, by simp [KeyHead], rfl⟩
  · rw [if_neg hout, if_neg hout]
    have hhead : KeyHead env (atKeyHeight env (keyheight - 1) (b :: below)) :=
      keyHead_atKeyHeight _ _
    cases hat : atKeyHeight env (keyheight - 1) (b :: below) with
    | nil =>
      rw [if_pos rfl]
      exact .inl ⟨.other, rfl, rfl⟩
    | cons a rest =>
      rw [if_neg (cons_ne_nil _ _)]
      rw [hat] at hhead
      refine .inr ⟨a :: rest, rfl, h.of_suffix (hat ▸ atKeyHeight_suffix _ _), hhead, ?_⟩
      rw [keyContents_cons_of_key (keyHead_cons.1 hhead)]

/-- The price after a key block. -/
theorem Named.calcNextRequiredStakeDifficultyV2_of_key (h : Named env index (b :: below))
    (hkey : isKey env b = true) :
    calcNextRequiredStakeDifficultyV2 env v index (b :: below) =
      keyPrice env v (keyContents env (b :: below)) := by
  rw [calcNextRequiredStakeDifficultyV2, keyContents_cons_of_key hkey, keyPrice,
    ← keyContents_cons_of_key hkey, keyHeight_keyContent]
  by_cases hfirst : b.header.keyHeight + 2 < env.params.coinbaseMaturity + 1
  · rw [if_pos hfirst, if_pos hfirst]
    rfl
  rw [if_neg hfirst, if_neg hfirst]
  by_cases hinside : (b.header.keyHeight + 2) % v.stakeDiffWindowSize ≠ 0
  · rw [if_pos (.inl hinside), if_pos hinside]
    rfl
  rw [if_neg (by simpa [hkey] using hinside), if_neg hinside, retargetStakeDiff, retargetPrice,
    keyHeight_keyContent]
  push_cast
  obtain ⟨e, hancestor, hat⟩ | ⟨prev, hancestor, hprev, hhead, hat⟩ :=
    h.ancestorKeyNode_keyContents hkey ((b.header.keyHeight : ℤ) + 2 - v.stakeDiffWindowSize - 1)
  · rw [hat, hancestor]
    rfl
  · rw [hat, hancestor, ok_bind, ok_bind, hprev.sumPurchasedTickets hhead, ok_bind,
      h.sumPurchasedTickets (keyHead_cons.2 hkey), ok_bind, hhead.head?_keyContents, Option.map_map]
    rfl

/-- A micro block repeats the price. -/
theorem calcNextRequiredStakeDifficultyV2_of_micro {b : MsgBlock} (below : Branch)
    (hmicro : isKey env b = false) :
    calcNextRequiredStakeDifficultyV2 env v index (b :: below) = .ok (statedPrice env b) := by
  rw [calcNextRequiredStakeDifficultyV2, statedPrice]
  split_ifs with hfirst hinside
  · rfl
  · rfl
  · exact absurd (.inr hmicro) hinside

/-- Every micro block of a branch states the price that its key blocks lead to. -/
def MicroPriced (env : Env) (v : VotingParams) (node : Branch) : Prop :=
  ∀ b below, b :: below <:+ node → isKey env b = false → below ≠ [] →
    keyPrice env v (keyContents env below) = .ok (statedPrice env b)

/-- Along a branch from the genesis block the price is that of the key blocks exactly if the micro
blocks state it. -/
theorem Named.price_iff (h : Named env index node)
    (hlast : ∀ b ∈ node.getLast?, b = env.params.genesisBlock) :
    (∀ anc, anc <:+ node → anc ≠ [] → calcNextRequiredStakeDifficultyV2 env v index anc =
      keyPrice env v (keyContents env anc)) ↔ MicroPriced env v node := by
  have hmicro :
      ∀ b below, isKey env b = false → keyContents env (b :: below) = keyContents env below :=
    fun b below hb => by rw [keyContents, keys_cons_of_micro hb, keyContents]
  constructor
  · intro hprice b below hs hb _
    have := hprice (b :: below) hs (cons_ne_nil _ _)
    rw [calcNextRequiredStakeDifficultyV2_of_micro below hb, hmicro b below hb] at this
    exact this.symm
  · intro hstated anc hs hne
    obtain ⟨b, below, rfl⟩ := exists_cons_of_ne_nil hne
    cases hb : isKey env b with
    | true => exact (h.of_suffix hs).calcNextRequiredStakeDifficultyV2_of_key hb
    | false =>
      rw [calcNextRequiredStakeDifficultyV2_of_micro below hb, hmicro b below hb]
      by_cases hbelow : below = []
      · -- The genesis block, if it is not a key block.
        subst hbelow
        obtain ⟨above, rfl⟩ := hs
        rw [hlast b (by simp)]
        rfl
      · exact (hstated b below hs hb hbelow).symm

/-! ## Accepted chains -/

variable {P : ChainState → MsgBlock → Prop} {st : ChainState}

/-- The price after an accepted chain, and after each block of it, is that of the key blocks exactly
if every micro block states the price that a key block in its place would have to ask. -/
theorem ticketPrice_iff (hgenesis : env.params.genesisBlock.header.prevKeyBlock = 0)
    (hst : Accepted env P st)
    (hzero : ∀ b ∈ branchOf st, isKey env b = true → env.blockHash b.header ≠ 0)
    (hindexed : ∀ b below, b :: below <:+ branchOf st →
      ∀ n, index (env.blockHash b.header) = some n →
      n = b :: below) {c : Caches}
    (hagenda : ∀ anc, anc <:+ branchOf st → anc ≠ [] → ∃ t, deploymentState env v index anc
      (sdiffAlgoDeploymentVersion v) voteIDSDiffAlgorithm c = .ok t) :
    (∀ anc, anc <:+ branchOf st → anc ≠ [] →
      (calcNextRequiredStakeDifficulty env v index anc c).map Prod.fst =
        keyPrice env v (keyContents env anc)) ↔ MicroPriced env v (branchOf st) := by
  have hnamed := named_of_accepted hgenesis hzero hindexed hst
  have hlast : ∀ b ∈ (branchOf st).getLast?, b = env.params.genesisBlock := fun b hb =>
    Option.some.inj (hb.symm.trans (getLast?_branchOf_of_accepted hst))
  rw [← hnamed.price_iff hlast]
  refine forall_congr' fun anc => forall_congr' fun hs => forall_congr' fun hne => ?_
  obtain ⟨t, ht⟩ := hagenda anc hs hne
  rw [calcNextRequiredStakeDifficulty, ht, ok_bind]
  cases calcNextRequiredStakeDifficultyV2 env v index anc <;> rfl

/-- A network with the agenda of the ticket price. -/
def priceParams : VotingParams where
  ticketPoolSize := 10
  stakeDiffWindowSize := 5
  stakeVersionInterval := 2
  stakeMajorityMultiplier := 3
  stakeMajorityDivisor := 4
  blockUpgradeNumToCheck := 2
  blockRejectNumRequired := 2
  ruleChangeActivationQuorum := 1
  ruleChangeActivationMultiplier := 3
  ruleChangeActivationDivisor := 4
  ruleChangeActivationInterval := 3
  deployments := fun version => if version = 5 then
    [⟨⟨voteIDSDiffAlgorithm, 6, [⟨0, true, false⟩, ⟨2, false, true⟩, ⟨4, false, false⟩]⟩, 0, 100⟩]
      else []
  mainNet := false

/-- The network on which blocks are checked against the price. -/
def priceEnv : Env :=
  { sampleEnv sampleParams with
    requiredStakeDifficulty := fun headers =>
      (calcNextRequiredStakeDifficulty (sampleEnv sampleParams) priceParams (fun _ => none)
        (headers.map fun header => ⟨header, [], []⟩) Caches.empty).map Prod.fst }

/-- A micro block with a price of its own. -/
def priceMicroBlock (sBits : ℤ) : MsgBlock :=
  blockOf priceEnv { sampleHeader 2 1 102 1 1 with sBits := sBits }
    [coinbaseTx 30 0 [heightOut 2, payTo 2 0]] []

/-- A key block on it that asks for a price of ten. -/
def priceKeyBlock : MsgBlock := blockOf priceEnv (sampleHeader 3 1 3 102 1)
  [coinbaseTx 40 55 [payTo 9 0, payTo 2 0], coinbaseTx 41 0 [heightOut 3, payTo 2 45]] []

/-- The price after the first key block is ten, and a micro block that says so leaves it there. -/
theorem ticketPrice_iff_priceMicroBlock :
    ∃ st, processBlocks priceEnv (fun _ _ => True) (genesisState priceEnv)
      [(10, sampleBlockOne), (10, priceMicroBlock 10)] = .ok st ∧
    ∀ anc, anc <:+ branchOf st → anc ≠ [] →
      (calcNextRequiredStakeDifficulty priceEnv priceParams (fun _ => none) anc Caches.empty).map
        Prod.fst = keyPrice priceEnv priceParams (keyContents priceEnv anc) := by
  have hrun : ∃ st, processBlocks priceEnv (fun _ _ => True) (genesisState priceEnv)
      [(10, sampleBlockOne), (10, priceMicroBlock 10)] = .ok st ∧
      branchOf st =
        [priceMicroBlock 10, sampleBlockOne, priceEnv.params.genesisBlock] := by decide +kernel
  obtain ⟨st, hst, hbranch⟩ := hrun
  have hagenda : ∀ b below, b :: below <:+ branchOf st →
      (deploymentState priceEnv priceParams (fun _ => none) (b :: below)
        (sdiffAlgoDeploymentVersion priceParams) voteIDSDiffAlgorithm Caches.empty).isOk =
          true := by
    rw [hbranch]
    decide +kernel
  have hpriced : MicroPriced priceEnv priceParams (branchOf st) := by
    rw [hbranch, MicroPriced]
    decide +kernel
  have hindexed : ∀ b below, b :: below <:+ branchOf st → ∀ n,
      (fun _ : Hash => (none : Option Branch)) (priceEnv.blockHash b.header) = some n →
      n = b :: below :=
    fun _ _ _ _ hnone => nomatch hnone
  refine ⟨st, hst,
    (ticketPrice_iff rfl (accepted_of_processBlocks _ .genesis hst) ?_ hindexed ?_).2 hpriced⟩
  · rw [hbranch]
    decide +kernel
  · intro anc hs hne
    obtain ⟨b, below, rfl⟩ := exists_cons_of_ne_nil hne
    exact ⟨_, eq_ok_valueOf (hagenda b below hs)⟩

/-- Two chains with the same key block and micro blocks that state different prices: a key block
that asks for the price of ten is accepted on the first and not on the second. -/
theorem exists_ticketPrice_ne : ∃ st st',
    Accepted priceEnv (fun _ _ => True) st ∧ Accepted priceEnv (fun _ _ => True) st' ∧
    keyContents priceEnv (branchOf st) = keyContents priceEnv (branchOf st') ∧
    (calcNextRequiredStakeDifficulty priceEnv priceParams (fun _ => none) (branchOf st)
      Caches.empty).map Prod.fst = .ok 10 ∧
    (calcNextRequiredStakeDifficulty priceEnv priceParams (fun _ => none) (branchOf st')
      Caches.empty).map Prod.fst = .ok 999 ∧
    (processBlock priceEnv st 10 priceKeyBlock).isOk = true ∧
    processBlock priceEnv st' 10 priceKeyBlock = .error (.rule .unexpectedDifficulty) := by
  exact ⟨_, _,
    accepted_valueOf _ [(10, sampleBlockOne), (10, priceMicroBlock 10)] (by decide +kernel),
    accepted_valueOf _ [(10, sampleBlockOne), (10, priceMicroBlock 999)]
      (by decide +kernel), by decide +kernel,
    by decide +kernel, by decide +kernel, by decide +kernel, by decide +kernel⟩

/-! ## The formula of the price -/

/-- The price before it is limited, over the integers. -/
def priceQuotient (env : Env) (v : VotingParams) (curDiff prevPoolSizeAll curPoolSizeAll : ℤ) : ℤ :=
  curDiff * curPoolSizeAll ^ 2 /
    (prevPoolSizeAll *
      (env.params.ticketsPerBlock * (v.ticketPoolSize + env.params.ticketMaturity)))

/-- The greatest price that the supply allows. -/
def supplyLimit (env : Env) (v : VotingParams) (nextHeight : ℤ) : ℤ :=
  (estimateSupply env nextHeight).tdiv v.ticketPoolSize

/-- The price before it is limited fits into a word, or what is left of it in a word is limited as
well. -/
def PriceFits (env : Env) (v : VotingParams)
    (nextHeight curDiff prevPoolSizeAll curPoolSizeAll : ℤ) : Prop :=
  let quotient := priceQuotient env v curDiff prevPoolSizeAll curPoolSizeAll
  quotient < 2 ^ 63 ∨ supplyLimit env v nextHeight ≤ int64 quotient ∨
    supplyLimit env v nextHeight ≤ env.params.minimumStakeDiff

/-- The limit is a 64-bit number. -/
theorem supplyLimit_lt (nextHeight : ℤ) : supplyLimit env v nextHeight < 2 ^ 63 := by
  have hsupply : estimateSupply env nextHeight < 2 ^ 63 := by
    unfold estimateSupply
    split_ifs
    · norm_num
    · exact (int64_range _).2
  rcases le_or_gt 0 (estimateSupply env nextHeight) with hpos | hneg
  · exact (Int.tdiv_le_self _ hpos).trans_lt hsupply
  · have hopposite := Int.tdiv_nonneg (neg_nonneg.2 hneg.le) (Int.natCast_nonneg v.ticketPoolSize)
    rw [Int.neg_tdiv] at hopposite
    unfold supplyLimit
    omega

variable {nextHeight curDiff prevPoolSizeAll curPoolSizeAll : ℤ}

/-- When the price is the quotient inside its limits. -/
theorem calcNextStakeDiffV2_eq_iff (hdiff : 0 ≤ curDiff) (hprev : 0 ≤ prevPoolSizeAll) :
    calcNextStakeDiffV2 env v nextHeight curDiff prevPoolSizeAll curPoolSizeAll =
      max env.params.minimumStakeDiff
        (min (priceQuotient env v curDiff prevPoolSizeAll curPoolSizeAll)
        (supplyLimit env v nextHeight)) ↔
    PriceFits env v nextHeight curDiff prevPoolSizeAll curPoolSizeAll := by
  have hprice : calcNextStakeDiffV2 env v nextHeight curDiff prevPoolSizeAll curPoolSizeAll =
      max env.params.minimumStakeDiff
        (min (int64 (priceQuotient env v curDiff prevPoolSizeAll curPoolSizeAll))
        (supplyLimit env v nextHeight)) := by
    unfold calcNextStakeDiffV2 priceQuotient supplyLimit
    simp only [Int.ediv_ediv_of_nonneg hprev, pow_two, mul_assoc]
    split_ifs <;> omega
  rw [hprice]
  have hpos : 0 ≤ priceQuotient env v curDiff prevPoolSizeAll curPoolSizeAll := by
    unfold priceQuotient
    positivity
  have hlimit : supplyLimit env v nextHeight < 2 ^ 63 := supplyLimit_lt nextHeight
  unfold PriceFits
  generalize priceQuotient env v curDiff prevPoolSizeAll curPoolSizeAll = quotient at *
  rcases lt_or_ge quotient (2 ^ 63) with hlt | hge
  · exact iff_of_true (by rw [int64_of_range (by omega) hlt]) (.inl hlt)
  · have hword := (int64_range quotient).2
    omega

/-- The price is the formula's, within its limits and no less than for a smaller pool, exactly where
it fits. -/
theorem ticketPriceFormula_iff (htickets : 0 < env.params.ticketsPerBlock)
    (hpool : 0 < v.ticketPoolSize) (hdiff : 0 ≤ curDiff) (hprev : 1 ≤ prevPoolSizeAll) :
    (calcNextStakeDiffV2 env v nextHeight curDiff prevPoolSizeAll curPoolSizeAll =
        max env.params.minimumStakeDiff
          (min (priceQuotient env v curDiff prevPoolSizeAll curPoolSizeAll)
          (supplyLimit env v nextHeight)) ∧
      (env.params.minimumStakeDiff ≤ supplyLimit env v nextHeight →
        calcNextStakeDiffV2 env v nextHeight curDiff prevPoolSizeAll curPoolSizeAll ∈
          Set.Icc env.params.minimumStakeDiff (supplyLimit env v nextHeight)) ∧
      ∀ smaller, 0 ≤ smaller → smaller ≤ curPoolSizeAll →
      PriceFits env v nextHeight curDiff prevPoolSizeAll smaller →
        calcNextStakeDiffV2 env v nextHeight curDiff prevPoolSizeAll smaller ≤
          calcNextStakeDiffV2 env v nextHeight curDiff prevPoolSizeAll curPoolSizeAll) ↔
    PriceFits env v nextHeight curDiff prevPoolSizeAll curPoolSizeAll := by
  have hprev' : 0 ≤ prevPoolSizeAll := by omega
  rw [← calcNextStakeDiffV2_eq_iff hdiff hprev']
  refine ⟨And.left, fun h => ⟨h, fun hlimit => ?_, fun smaller hsmaller hle hfits => ?_⟩⟩
  · rw [h, Set.mem_Icc]
    omega
  · rw [(calcNextStakeDiffV2_eq_iff hdiff hprev').2 hfits, h]
    have hsquare : smaller ^ 2 ≤ curPoolSizeAll ^ 2 := pow_le_pow_left₀ hsmaller hle 2
    have hquotient : priceQuotient env v curDiff prevPoolSizeAll smaller ≤
        priceQuotient env v curDiff prevPoolSizeAll curPoolSizeAll :=
      Int.ediv_le_ediv (by positivity) (mul_le_mul_of_nonneg_left hsquare hdiff)
    omega

/-- What the price reads of the parameters of the main network. -/
def mainNetPriceEnv : Env := sampleEnv
  { sampleParams with
    baseSubsidy := 5000000000
    mulSubsidy := 1000
    divSubsidy := 1005
    subsidyReductionInterval := 1543
    minimumStakeDiff := 200000000
    ticketMaturity := 128 }

/-- Likewise. -/
def mainNetPriceParams : VotingParams :=
  { priceParams with ticketPoolSize := 8192, mainNet := true }

/-- A price that is limited by the supply. -/
theorem ticketPriceFormula_limited :
    calcNextStakeDiffV2 mainNetPriceEnv mainNetPriceParams 15430 (4160 * 10 ^ 8) (10 ^ 7) (2 ^ 31) =
      supplyLimit mainNetPriceEnv mainNetPriceParams 15430 := by
  have hfits :
      PriceFits mainNetPriceEnv mainNetPriceParams 15430 (4160 * 10 ^ 8) (10 ^ 7) (2 ^ 31) :=
    .inl (by decide +kernel)
  have hprice :=
    (ticketPriceFormula_iff (by decide) (by decide) (by norm_num) (by norm_num)).2 hfits
  exact hprice.1.trans (by decide +kernel)

/-- Tickets for twice as many, and the price before it is limited is a multiple of `2^64`: the least
price. -/
theorem exists_price_wraps :
    priceQuotient mainNetPriceEnv mainNetPriceParams (4160 * 10 ^ 8) (10 ^ 7) (2 ^ 32) = 2 ^ 64 ∧
    200000000 < supplyLimit mainNetPriceEnv mainNetPriceParams 15430 ∧
    calcNextStakeDiffV2 mainNetPriceEnv mainNetPriceParams 15430 (4160 * 10 ^ 8) (10 ^ 7) (2 ^ 32) =
      200000000 ∧
    calcNextStakeDiffV2 mainNetPriceEnv mainNetPriceParams 15430 (4160 * 10 ^ 8) (10 ^ 7) (2 ^ 31) =
      supplyLimit mainNetPriceEnv mainNetPriceParams 15430 := by
  decide +kernel

end Hcashd.Blockchain.Voting
