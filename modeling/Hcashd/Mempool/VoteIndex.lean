import Hcashd.Mempool.Outpoints

/-!
# The index of votes

The pool lists the votes on each block, and the miner counts them there. `insertVote` lists a vote
when it is accepted, and nothing takes it off the list: a vote that has left the pool, because it
was mined or pruned or removed with its ticket, is still counted, and the list grows with every
block (`exists_vote_counted`). And a second vote of a ticket on a block is in the pool but not
listed.

While no vote leaves the pool and no ticket votes again on a block, exactly the votes of the pool
are listed, each ticket once for a block (`votesListed_of_reachable`).
-/

namespace Hcashd.Mempool

open Lib Stake Blockchain List Std.ExtTreeMap

variable (env : Env)

namespace TxPool

/-- What `VotesForBlocks` returns for a block. -/
def votesForBlock (mp : TxPool) (blockHash : Hash) : List VoteTx := mp.votes[blockHash]?.getD []

/-- `VotesForBlocks`: the votes for each of some blocks. -/
def votesForBlocks (mp : TxPool) (hashes : List Hash) : List (List VoteTx) :=
  hashes.map mp.votesForBlock

/-- How a vote is listed. -/
def voteTx (ssgen : MsgTx) : VoteTx :=
  ⟨env.txHash ssgen, (ssgen.txIn[1]?.map fun txIn => txIn.previousOutPoint.hash).getD 0,
    blockValid (sSGenVoteBits ssgen)⟩

/-- A vote on a block is in the pool. -/
def HasVote (mp : TxPool) (blockHash : Hash) (vt : VoteTx) : Prop :=
  ∃ (hash : Hash) (desc : TxDesc), mp.pool[hash]? = some desc ∧
    desc.type = .sSGen ∧ (sSGenBlockVotedOn desc.tx).1 = blockHash ∧ voteTx env desc.tx = vt

/-- The lists have exactly the votes of the pool. -/
structure VotesListed (mp : TxPool) : Prop where
  mem_iff : ∀ blockHash vt, vt ∈ mp.votesForBlock blockHash ↔ mp.HasVote env blockHash vt
  nodup : ∀ blockHash, ((mp.votesForBlock blockHash).map VoteTx.sstxHash).Nodup

/-- The step takes no vote out of the pool, and brings no second vote of a ticket on a block. -/
def KeepsVotes (mp : TxPool) (a : PoolStep) : Prop :=
  StepRemovesOnly env (fun desc => desc.type ≠ .sSGen) mp a ∧
    ∀ node tx isNew rateLimit allowHighFees, a = .accept node tx isNew rateLimit allowHighFees →
      txType env tx = .sSGen → ∀ vt ∈ mp.votesForBlock (sSGenBlockVotedOn tx).1,
        vt.sstxHash ≠ (voteTx env tx).sstxHash

variable {env} {policy : Policy} {mp mp' : TxPool} {tx : MsgTx} {a : PoolStep}

theorem votes_removeFromPool : (mp.removeFromPool env tx).votes = mp.votes := by
  unfold removeFromPool
  split <;> rfl

/-- Removing what is not a vote keeps the votes listed. -/
theorem votesListed_removeFromPool (m : TxPool) (x : MsgTx) (hm : Left env (VotesListed env) mp m)
    (hvote : ∀ desc, mp.pool[env.txHash x]? = some desc → desc.type ≠ .sSGen) :
    VotesListed env (m.removeFromPool env x) := by
  have hvotes : (m.removeFromPool env x).votesForBlock = m.votesForBlock := by
    funext blockHash
    rw [votesForBlock, votes_removeFromPool, votesForBlock]
  refine ⟨fun blockHash vt => ?_, fun blockHash => hvotes ▸ hm.kept.nodup blockHash⟩
  rw [hvotes, hm.kept.mem_iff]
  constructor
  · rintro ⟨hash, desc, hdesc, htype, hvt⟩
    refine ⟨hash, desc, ?_, htype, hvt⟩
    rw [getElem?_removeFromPool, if_neg, hdesc]
    rintro rfl
    exact hvote desc (hm.within _ _ hdesc) htype
  · rintro ⟨hash, desc, hdesc, hvt⟩
    exact ⟨hash, desc, within_removeFromPool _ _ hdesc, hvt⟩

/-- A new vote is listed for its block. -/
theorem votesForBlock_insertVote {ssgen : MsgTx}
    (hnew : ∀ vt ∈ mp.votesForBlock (sSGenBlockVotedOn ssgen).1,
      vt.sstxHash ≠ (voteTx env ssgen).sstxHash)
    (blockHash : Hash) : (mp.insertVote env ssgen).votesForBlock blockHash =
      mp.votesForBlock blockHash ++ if (sSGenBlockVotedOn ssgen).1 =
        blockHash then [voteTx env ssgen] else [] := by
  have hinsert : (mp.insertVote env ssgen).votes = mp.votes.insert (sSGenBlockVotedOn ssgen).1
      (mp.votesForBlock (sSGenBlockVotedOn ssgen).1 ++ [voteTx env ssgen]) := by
    refine congrArg TxPool.votes (if_neg ?_)
    simpa [any_eq_true, votesForBlock, voteTx] using hnew
  rw [votesForBlock, hinsert]
  by_cases hblock : (sSGenBlockVotedOn ssgen).1 = blockHash
  · subst hblock
    simp
  · simp [Std.ExtTreeMap.getElem?_insert, hblock, votesForBlock]

/-- A new transaction keeps the votes listed. -/
theorem VotesListed.addTransaction (h : VotesListed env mp) (hnone : mp.pool[env.txHash tx]? = none)
    (hnew : txType env tx = .sSGen →
      ∀ vt ∈ mp.votesForBlock (sSGenBlockVotedOn tx).1, vt.sstxHash ≠ (voteTx env tx).sstxHash)
    {added : TxPool} {height : ℕ} {fee : ℤ}
    (hadded : added = mp.addTransaction env tx (txType env tx) height fee) :
    VotesListed env (if txType env tx = .sSGen then added.insertVote env tx else added) := by
  subst hadded
  have hpool : ∀ blockHash vt,
      HasVote env (mp.addTransaction env tx (txType env tx) height fee) blockHash vt ↔
      (txType env tx = .sSGen ∧ (sSGenBlockVotedOn tx).1 = blockHash ∧ voteTx env tx = vt) ∨
        vt ∈ mp.votesForBlock blockHash := by
    intro blockHash vt
    rw [h.mem_iff]
    simp [HasVote, getElem?_addTransaction hnone, or_and_right, exists_or, and_assoc]
  split_ifs with htype
  · have hlist :=
      @votesForBlock_insertVote env (mp.addTransaction env tx (txType env tx) height fee) tx
        (hnew htype)
    refine ⟨fun blockHash vt => ?_, fun blockHash => ?_⟩
    · rw [HasVote, (insertVote_eq _ _).1, ← HasVote, hpool, hlist, mem_append]
      by_cases hblock : (sSGenBlockVotedOn tx).1 = blockHash
      · rw [if_pos hblock, mem_singleton, or_comm]
        simp only [htype, hblock, true_and, eq_comm]
        rfl
      · simp only [hblock, if_false, not_mem_nil, or_false, false_and, and_false, false_or]
        rfl
    · rw [hlist, map_append, nodup_append]
      refine ⟨h.nodup blockHash, by split_ifs <;> simp, ?_⟩
      intro ticket hticket ticket' hticket'
      split_ifs at hticket' with hblock
      · subst hblock
        obtain ⟨vt, hvt, rfl⟩ := mem_map.1 hticket
        obtain rfl := mem_singleton.1 hticket'
        exact hnew htype vt hvt
      · exact nomatch hticket'
  · refine ⟨fun blockHash vt => ?_, h.nodup⟩
    rw [hpool]
    simp only [htype, false_and, false_or]
    rfl

/-- Every step that keeps votes keeps them listed. -/
theorem VotesListed.serve (h : Left env (VotesListed env) mp mp) (hkeeps : KeepsVotes env mp a)
    (hrun : mp.serve env policy a = .ok mp') : Keyed env mp' ∧ VotesListed env mp' :=
  h.serve votesListed_removeFromPool hkeeps.1 (fun node tx _ _ _ ha hnone _ _ _ hadded =>
    h.kept.addTransaction hnone (hkeeps.2 node tx _ _ _ ha) hadded)
      (fun _ => ⟨h.kept.mem_iff, h.kept.nodup⟩) hrun

/-- In every pool that is reached while no vote leaves it and no ticket votes again on a block,
exactly the votes of the pool are listed. -/
theorem votesListed_of_reachable (h : Reachable env policy (KeepsVotes env) mp) :
    VotesListed env mp := by
  induction h with
  | empty =>
    exact ⟨by simp [votesForBlock, TxPool.empty, HasVote], by simp [votesForBlock, TxPool.empty]⟩
  | serve h hkeeps hserve ih =>
    exact (VotesListed.serve ⟨keyed_of_reachable h, .refl _, ih⟩ hkeeps hserve).2

/-! ## Votes and their removal -/

/-- The second ticket votes on a block. -/
def acceptSecondVote (id nonce : ℕ) : PoolStep :=
  .accept ticketNode (Voting.voteTx id 101 nonce 5) true false true

/-- A transaction that spends the payment of the chain. -/
def paymentTx : MsgTx := plainTx 60 [spend 50 0 0 10 3 2] [payTo 2 10]

theorem keepsVotes_accept {node : Node} {isNew rateLimit allowHighFees : Bool}
    (h : ∀ vt ∈ mp.votesForBlock (sSGenBlockVotedOn tx).1, vt.sstxHash ≠ (voteTx env tx).sstxHash) :
    KeepsVotes env mp (.accept node tx isNew rateLimit allowHighFees) := by
  refine ⟨trivial, fun _ _ _ _ _ ha _ => ?_⟩
  cases ha
  exact h

set_option synthInstance.maxSize 256 in
/-- A pool with three votes. -/
theorem exists_threeVotes :
    ∃ one, TxPool.empty.serve Voting.versionEnv openPolicy (acceptVote 200 3) = .ok one ∧
    ∃ two, one.serve Voting.versionEnv openPolicy (acceptSecondVote 201 3) = .ok two ∧
    (∀ vt ∈ one.votesForBlock (sampleBlockHash 3), vt.sstxHash ≠ Hash.ofNat 101) ∧
    ∃ three, two.serve Voting.versionEnv openPolicy (acceptVote 202 4) = .ok three ∧
    (∀ vt ∈ two.votesForBlock (sampleBlockHash 4), vt.sstxHash ≠ Hash.ofNat 100) ∧
    ∃ four, three.serve Voting.versionEnv openPolicy
      (.accept ticketNode paymentTx true false true) = .ok four ∧
    four.pool.size = 4 ∧ four.pool[Hash.ofNat 60]?.map TxDesc.type = some .regular ∧
    ∃ left, four.serve Voting.versionEnv openPolicy (.remove paymentTx false) = .ok left ∧
    left.pool.size = 3 ∧ (left.votesForBlock (sampleBlockHash 3)).length = 2 ∧
    (left.votesForBlock (sampleBlockHash 4)).length = 1 := by
  decide +kernel

/-- Two tickets vote on a block and one of them on another one, and a payment comes and is
removed. -/
theorem votesListed_of_reachable_threeVotes :
    ∃ mp, Reachable Voting.versionEnv openPolicy (KeepsVotes Voting.versionEnv) mp ∧
    (mp.pool.size = 3 ∧ (mp.votesForBlock (sampleBlockHash 3)).length = 2 ∧
      (mp.votesForBlock (sampleBlockHash 4)).length = 1) ∧ VotesListed Voting.versionEnv mp := by
  obtain ⟨one, hone, two, htwo, hnew, three, hthree, hnew', four, hfour, -, htype, left, hleft,
    hlists⟩ :=
    exists_threeVotes
  have hfirst : KeepsVotes Voting.versionEnv .empty (acceptVote 200 3) :=
    keepsVotes_accept (by simp [votesForBlock, TxPool.empty])
  have hsecond : KeepsVotes Voting.versionEnv one (acceptSecondVote 201 3) := keepsVotes_accept hnew
  have hthird : KeepsVotes Voting.versionEnv two (acceptVote 202 4) := keepsVotes_accept hnew'
  have hpayment : txType Voting.versionEnv paymentTx ≠ .sSGen := by decide +kernel
  have hfourth :
      KeepsVotes Voting.versionEnv three (.accept ticketNode paymentTx true false true) := by
    refine ⟨trivial, fun _ _ _ _ _ ha hvote => ?_⟩
    cases ha
    exact absurd hvote hpayment
  have hremoved : KeepsVotes Voting.versionEnv four (.remove paymentTx false) := by
    refine ⟨fun desc hdesc hvote => ?_, fun _ _ _ _ _ ha => by cases ha⟩
    obtain ⟨desc', hdesc', hregular⟩ := Option.map_eq_some_iff.1 htype
    have hsame : desc = desc' := Option.some.inj (hdesc.symm.trans hdesc')
    rw [hsame, hregular] at hvote
    cases hvote
  have hreach :=
    ((((Reachable.empty.serve hfirst hone).serve hsecond htwo).serve hthird hthree).serve
    hfourth hfour).serve hremoved hleft
  exact ⟨left, hreach, hlists, votesListed_of_reachable hreach⟩

/-- A pool whose vote was removed. -/
theorem exists_oneVote :
    ∃ one, TxPool.empty.serve Voting.versionEnv openPolicy (acceptVote 200 3) = .ok one ∧
    ∃ left, one.serve Voting.versionEnv openPolicy (.remove (Voting.voteTx 200 100 3 5) false) =
      .ok left ∧
      left.pool = ∅ ∧
      left.votesForBlock (sSGenBlockVotedOn (Voting.voteTx 200 100 3 5)).1 ≠ [] := by
  decide +kernel

/-- A vote is listed for its block after it has left the pool, which is empty. -/
theorem exists_vote_counted : ∃ mp, Reachable Voting.versionEnv openPolicy (fun _ _ => True) mp ∧
    ¬ VotesListed Voting.versionEnv mp := by
  obtain ⟨one, hone, left, hleft, hpool, hvotes⟩ := exists_oneVote
  refine ⟨left, (Reachable.empty.serve trivial hone).serve trivial hleft, fun hlisted => ?_⟩
  obtain ⟨vt, hvt⟩ := exists_mem_of_ne_nil _ hvotes
  obtain ⟨hash, desc, hdesc, -⟩ := (hlisted.mem_iff _ vt).1 hvt
  simp [hpool] at hdesc

end TxPool

end Hcashd.Mempool
