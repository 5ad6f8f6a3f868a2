import Hcashd.Wire

/-!
# Network parameters

The fields of `chaincfg.Params` that the modelled code reads. Heights, counts and maturities are
naturals; the subsidy schedule is in atoms, as integers.
-/

namespace Hcashd

/-- `chaincfg.TokenPayout`, with the bytes that its address decodes to in place of the address. -/
structure TokenPayout where
  scriptAddress : List UInt8
  amount : ℤ
  deriving DecidableEq, Repr, Inhabited

/-- `Params`: the parameters of a network that the modelled functions read. -/
structure Params where
  genesisBlock : MsgBlock
  powLimit : ℤ
  -- Factor between the target of a micro block and that of a key block.
  difficultyRate : ℕ
  maxMicroPerKey : ℕ
  maxTxSize : ℕ
  -- The subsidy of a key block, reduced by `mulSubsidy / divSubsidy` after each interval, and the
  -- proportions in which miner, voters and organization share it.
  baseSubsidy : ℤ
  mulSubsidy : ℤ
  divSubsidy : ℤ
  subsidyReductionInterval : ℤ
  workRewardProportion : ℕ
  stakeRewardProportion : ℕ
  blockTaxProportion : ℕ
  -- Height up to which every block is a key block.
  microBlockValidationHeight : ℕ
  minimumStakeDiff : ℤ
  ticketsPerBlock : ℕ
  -- Maturities and the expiry, in key blocks.
  ticketMaturity : ℕ
  ticketExpiry : ℕ
  coinbaseMaturity : ℕ
  sStxChangeMaturity : ℕ
  maxFreshStakePerBlock : ℕ
  -- Key heights at which the first ticket can mature and at which votes begin.
  stakeEnabledHeight : ℕ
  stakeValidationHeight : ℕ
  stakeBaseSigScript : List UInt8
  organizationPkScript : List UInt8
  organizationPkScriptVersion : ℕ
  blockOneLedger : List TokenPayout
  deriving Repr, Inhabited

/-- `Choice`: what an agenda offers. -/
structure Choice where
  bits : ℕ
  isAbstain : Bool
  isNo : Bool
  deriving DecidableEq, Repr, Inhabited

/-- `Vote`: an agenda, with the bits of a vote that are for it. -/
structure Vote where
  id : String
  mask : ℕ
  choices : List Choice
  deriving DecidableEq, Repr, Inhabited

/-- `ConsensusDeployment`: an agenda and its times. -/
structure ConsensusDeployment where
  vote : Vote
  -- Median times of the chain from which on the agenda is voted on, and at which it expires.
  startTime : ℕ
  expireTime : ℕ
  deriving DecidableEq, Repr, Inhabited

/-- `chaincfg.Params`, what only the ticket price and the voting on agendas read of it. -/
structure VotingParams where
  ticketPoolSize : ℕ
  stakeDiffWindowSize : ℕ
  -- Windows of key blocks over which stake versions are counted, and the share of a majority.
  stakeVersionInterval : ℕ
  stakeMajorityMultiplier : ℕ
  stakeMajorityDivisor : ℕ
  blockUpgradeNumToCheck : ℕ
  blockRejectNumRequired : ℕ
  -- Windows of key blocks over which votes on an agenda are counted, the number of votes that is
  -- asked for, and the share of the votes that locks a choice in.
  ruleChangeActivationQuorum : ℕ
  ruleChangeActivationMultiplier : ℕ
  ruleChangeActivationDivisor : ℕ
  ruleChangeActivationInterval : ℕ
  -- The agendas of a stake version.
  deployments : ℕ → List ConsensusDeployment
  -- Whether the network is the main network.
  mainNet : Bool

/-- `BlockOneSubsidy`: the sum of the ledger. -/
def Params.blockOneSubsidy (p : Params) : ℤ :=
  p.blockOneLedger.foldl (fun sum output => Lib.int64 (sum + output.amount)) 0

/-- `TotalSubsidyProportions`, in 16 bits. -/
def Params.totalSubsidyProportions (p : Params) : ℕ :=
  (p.workRewardProportion + p.stakeRewardProportion + p.blockTaxProportion) % 2^16

end Hcashd
