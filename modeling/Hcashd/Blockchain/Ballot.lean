import Hcashd.Blockchain.BlockRun

/-!
# What the ballot checks establish

`CheckBlockStakeSanity` of a key block, taken apart: which stake transactions a block may hold at
its key height (`StakeSane`), and from `StakeValidationHeight` on what its votes and revocations are
(`Ballot`).
-/

namespace Hcashd.Blockchain

open Lib Stake

variable {env : Env} {block : MsgBlock} {node : Stake.Node}

/-- What `CheckBlockStakeSanity` establishes for a block from `StakeValidationHeight` on. -/
structure Ballot (env : Env) (block : MsgBlock) (node : Stake.Node) : Prop where
  voters : env.params.ticketsPerBlock / 2 + 1 ≤ block.header.voters
  winner : ∀ tx ∈ votesIn env block,
    (tx.txIn[1]?.map fun txIn => txIn.previousOutPoint.hash).getD 0 ∈ node.nextWinners
  votedOn : ∀ tx ∈ votesIn env block, (sSGenBlockVotedOn tx).1 = block.header.prevKeyBlock ∧
    (sSGenBlockVotedOn tx).2.2 = u32Sub block.header.keyHeight 1
  approval : blockValid block.header.voteBits = true ↔ voteNay env block < voteYea env block
  missed : ∀ tx ∈ block.sTransactions, isSSRtx env tx = true →
    (tx.txIn[0]?.map fun txIn => txIn.previousOutPoint.hash).getD 0 ∈ node.missedTickets
  revocations : block.sTransactions.countP (isSSRtx env) ≤ 255
  complete : block.sTransactions.countP (isSStx env) + block.sTransactions.countP (isSSGen env) +
    block.sTransactions.countP (isSSRtx env) = block.sTransactions.length

/-- What the checks of the votes establish. -/
theorem ballot_of_checkBallot (h : checkBallot env block node = .ok ⟨⟩) :
    Ballot env block node := by
  unfold checkBallot at h
  simp only [bind_eq_ok, rejectIf_eq_ok, exists_const, forM_eq_ok, not_lt, not_not, not_and] at h
  obtain ⟨-, hvoters, hvotes, hyea, hnay, -, hrevoked, hcount, hcomplete, -⟩ := h
  have hvote : ∀ tx ∈ votesIn env block,
      (tx.txIn[1]?.map fun txIn => txIn.previousOutPoint.hash).getD 0 ∈ node.nextWinners ∧
        (sSGenBlockVotedOn tx).1 = block.header.prevKeyBlock ∧
        (sSGenBlockVotedOn tx).2.2 = u32Sub block.header.keyHeight 1 := by
    intro tx htx
    have hcheck := hvotes tx htx
    unfold checkVote at hcheck
    simp only [bind_eq_ok, rejectIf_eq_ok, exists_const, not_not, not_or] at hcheck
    exact hcheck
  refine ⟨hvoters, fun tx htx => (hvote tx htx).1, fun tx htx => (hvote tx htx).2, ?_,
    fun tx htx hrevoke => ?_, hcount, hcomplete⟩
  · constructor
    · intro hvalid
      by_contra hle
      exact absurd hvalid (hyea (not_lt.1 hle))
    · intro hlt
      simpa using hnay hlt
  · have hcheck := hrevoked tx (List.mem_filter.2 ⟨htx, hrevoke⟩)
    unfold checkRevocation at hcheck
    rw [rejectIf_eq_ok, not_not] at hcheck
    exact hcheck

/-- What `CheckBlockStakeSanity` establishes for a key block. -/
structure StakeSane (env : Env) (block : MsgBlock) (node : Stake.Node) : Prop where
  fresh : block.sTransactions.countP (isSStx env) ≤ env.params.maxFreshStakePerBlock
  early : block.header.keyHeight + 1 < env.params.stakeValidationHeight →
    block.sTransactions.countP (isSStx env) = block.sTransactions.length
  ballot : env.params.stakeValidationHeight ≤ block.header.keyHeight + 1 → Ballot env block node
  noEarlyVotes : (∃ tx ∈ block.sTransactions, isSSGen env tx = true ∨ isSSRtx env tx = true) →
    env.params.stakeEnabledHeight + 1 ≤ block.header.keyHeight ∧
      env.params.stakeValidationHeight ≤ block.header.keyHeight + 1

/-- What the checks of a key block establish. -/
theorem stakeSane_of_checkKeyBlock {headers : List BlockHeader}
    (hkey : isKeyBlock env block.header = true)
    (h : checkKeyBlock env block headers node = .ok ⟨⟩) : StakeSane env block node := by
  unfold checkKeyBlock at h
  rw [if_pos hkey] at h
  split at h
  · cases h
  · simp only [checkBlockStakeSanity, bind_eq_ok, rejectIf_eq_ok, exists_const, not_lt, not_and,
      not_or] at h
    obtain ⟨_, -, hvotes, _, -, -, -, hfresh, h⟩ := h
    refine ⟨hfresh, fun hearly => ?_, fun hlate => ?_, hvotes⟩
    · rw [if_pos hearly, checkNoBallot] at h
      simp only [bind_eq_ok, rejectIf_eq_ok, exists_const, not_not] at h
      exact h.1
    · rw [if_neg (not_lt.2 hlate)] at h
      exact ballot_of_checkBallot h

section Types

/-- A ticket purchase is no vote: the first output of one is tagged and of the other is data. -/
theorem isSSGen_of_isSStx {tx : MsgTx} (h : isSStx env tx = true) : isSSGen env tx = false := by
  unfold isSStx Stake.isSStx at h
  unfold isSSGen Stake.isSSGen
  cases hout : tx.txOut with
  | nil => simp [hout] at h
  | cons out outs =>
    simp only [hout, Bool.and_eq_true, beq_iff_eq] at h
    cases outs with
    | nil => simp [sSGenDataOutputs]
    | cons out' outs => simp [sSGenDataOutputs, h.2.1]

/-- The votes among transactions. -/
theorem countTxType_sSGen (txs : List MsgTx) :
    countTxType env .sSGen txs = txs.countP (isSSGen env) := by
  unfold countTxType
  refine List.countP_congr fun tx _ => ?_
  have hexcl : isSStx env tx = true → isSSGen env tx = false := isSSGen_of_isSStx
  simp only [txType, determineTxType]
  split_ifs <;> simp_all

end Types

end Hcashd.Blockchain
