import Hcashd.Blockchain.MerkleStore
import Hcashd.Stake.Untrusted

/-!
# Context-free checks of blocks from the network

`checkBlockSanity` of `validate.go` once more, with every index and slice expression of it and of
what it calls as a step that can fail. Where no vote lacks its second output, every step is the one
of `Blockchain.Sanity` (`checkBlockSanity_eq`). The block that is checked makes the node panic in
five places, each behind the checks before it (`avoids_checkBlockSanity_iff_staysInRange`): a second
coinbase that is not there, a leaf that is taken from a script of 36 or 37 bytes, and a vote without
vote bits in the loop over the regular transactions, in the one over the stake transactions of a key
block, and in the one that counts signature operations.
-/

namespace Hcashd.Blockchain.Untrusted

open Lib Stake Stake.Untrusted List

section Checks

variable (env : Env)

/-- The checks of `CheckTransactionSanity` on what the inputs refer to. -/
def checkInputKinds (tx : MsgTx) (isSSGen : Bool) : Except Err PUnit :=
  if isCoinBaseTx tx then do
    let txIn ← index .panic tx.txIn 0
    rejectIf (¬ isNullOutpoint txIn.previousOutPoint) (Err.rule .badCoinbaseOutpoint)
    rejectIf (¬ isNullFraudProof txIn) (Err.rule .badCoinbaseFraudProof)
    rejectIf (txIn.signatureScript.length < MinCoinbaseScriptLen ∨
      MaxCoinbaseScriptLen < txIn.signatureScript.length) (Err.rule .badCoinbaseScriptLen)
  else if isSSGen then do
    let stakebase ← index .panic tx.txIn 0
    rejectIf (stakebase.signatureScript.length < MinCoinbaseScriptLen ∨
      MaxCoinbaseScriptLen < stakebase.signatureScript.length) (Err.rule .badStakebaseScriptLen)
    rejectIf (stakebase.signatureScript ≠ env.params.stakeBaseSigScript)
      (Err.rule .badStakebaseScrVal)
    let ticket ← index .panic tx.txIn 1
    rejectIf (isNullOutpoint ticket.previousOutPoint) (Err.rule .badTxInput)
  else
    tx.txIn.forM fun txIn => rejectIf (isNullOutpoint txIn.previousOutPoint) (Err.rule .badTxInput)

/-- `CheckTransactionSanity`, with every access to a slice. -/
def checkTransactionSanity (tx : MsgTx) : Except Err PUnit := do
  rejectIf (tx.txIn = []) (Err.rule .noTxInputs)
  rejectIf (tx.txOut = []) (Err.rule .noTxOutputs)
  rejectIf (env.params.maxTxSize < env.txSize tx) (Err.rule .txTooBig)
  let _ ← tx.txOut.foldlM (addOutputAmount env) 0
  let isSSGen ← answer (Stake.Untrusted.isSSGen env.script tx)
  checkInputKinds env tx isSSGen
  rejectIf (¬ (tx.txIn.map TxIn.previousOutPoint).Nodup) (Err.rule .duplicateTxInputs)

/-- The turn of the loop of `checkProofOfStake` for a transaction. -/
def checkCommitValue (header : BlockHeader) (tx : MsgTx) : Except Err PUnit := do
  if ← answer (Stake.Untrusted.isSStx env.script tx) then do
    let out ← index .panic tx.txOut 0
    rejectIf (out.value < header.sBits) (Err.rule .notEnoughStake)
    rejectIf (out.value < env.params.minimumStakeDiff) (Err.rule .stakeBelowMinimum)
  else pure ⟨⟩

/-- `checkProofOfStake`, with every access to a slice. -/
def checkProofOfStake (block : MsgBlock) : Except Err PUnit :=
  block.sTransactions.forM (checkCommitValue env block.header)

/-- `checkBlockHeaderSanity`, with every access to a slice. -/
def checkBlockHeaderSanity (block : MsgBlock) (adjustedTime : ℤ) (noPowCheck : Bool) :
    Except Err PUnit := do
  checkProofOfWork env block.header noPowCheck
  checkProofOfStake env block
  rejectIf (adjustedTime + MaxTimeOffsetSeconds < block.header.timestamp) (Err.rule .timeTooNew)

/-- The check of `checkBlockSanity` on the second transaction. -/
def checkSecondCoinbase (transactions : List MsgTx) (secondCoinbase : Bool) : Except Err PUnit :=
  if secondCoinbase then do
    let second ← index .panic transactions 1
    rejectIf (¬ isCoinBaseTx second) (Err.rule .firstTxNotCoinbase)
  else pure ⟨⟩

/-- The checks of `checkBlockSanity` on the coinbases. -/
def checkCoinbases (transactions : List MsgTx) (secondCoinbase : Bool) : Except Err PUnit := do
  let first ← index .panic transactions 0
  rejectIf (¬ isCoinBaseTx first) (Err.rule .firstTxNotCoinbase)
  checkSecondCoinbase transactions secondCoinbase
  let others ← slice .panic transactions (if secondCoinbase then 2 else 1) transactions.length
  others.forM fun tx => rejectIf (isCoinBaseTx tx) (Err.rule .multipleCoinbases)

/-- The checks of `checkBlockSanity` on each regular transaction. -/
def checkRegularTx (tx : MsgTx) : Except Err PUnit := do
  let txType ← Stake.Untrusted.determineTxType env.script tx
  rejectIf (txType ≠ .regular) (Err.rule .stakeTxInRegularTree)
  checkTransactionSanity env tx

/-- The checks of `checkBlockSanity` on each stake transaction of a key block. -/
def checkStakeTx (tx : MsgTx) : Except Err PUnit := do
  checkTransactionSanity env tx
  let txType ← Stake.Untrusted.determineTxType env.script tx
  rejectIf (txType = .regular) (Err.rule .regTxInStakeTree)

/-- The checks of `checkBlockSanity` on the stake transactions of a key block. They are counted once
each of them has been classified. -/
def checkStakeTree (block : MsgBlock) : Except Err PUnit := do
  block.sTransactions.forM (checkStakeTx env)
  let totalVotes := countTxType env .sSGen block.sTransactions
  rejectIf (countTxType env .sStx block.sTransactions ≠ block.header.freshStake)
    (Err.rule .freshStakeMismatch)
  rejectIf (env.params.stakeValidationHeight ≤ u32 (block.header.keyHeight + 1) ∧
    totalVotes ≤ env.params.ticketsPerBlock / 2) (Err.rule .notEnoughVotes)
  rejectIf (env.params.ticketsPerBlock < totalVotes) (Err.rule .tooManyVotes)
  rejectIf (totalVotes ≠ block.header.voters) (Err.rule .votesMismatch)
  rejectIf (countTxType env .sSRtx block.sTransactions ≠ block.header.revocations)
    (Err.rule .revocationsMismatch)

/-- Only a key block has its stake transactions checked. -/
def checkStakeTreeIf (keyBlock : Bool) (block : MsgBlock) : Except Err PUnit :=
  if keyBlock then checkStakeTree env block else pure ⟨⟩

/-- The comparison of a merkle root with the last element of the array that is built for the
transactions. -/
def checkMerkleRoot (root : Hash) (transactions : List MsgTx) (compressed : Bool) :
    Except Err PUnit := do
  let merkles ← buildMerkleTreeStore env transactions compressed
  let calculatedMerkleRoot ← index .panic merkles (merkles.length - 1)
  rejectIf (some root ≠ calculatedMerkleRoot) (Err.rule .badMerkleRoot)

/-- The comparison of the merkle roots of a header with those of the transactions. -/
def checkMerkleRoots (block : MsgBlock) (keyBlock compressed : Bool) : Except Err PUnit := do
  checkMerkleRoot env block.header.merkleRoot block.transactions compressed
  if keyBlock then checkMerkleRoot env block.header.stakeRoot block.sTransactions false else pure ⟨⟩

/-- The loop of `checkBlockSanity` that adds up the signature operations. -/
def addSigOps : (totalSigOps : ℕ) → List MsgTx → Except Err PUnit
  | _, [] => pure ⟨⟩
  | totalSigOps, tx :: txs => do
    let isSSGen ← answer (Stake.Untrusted.isSSGen env.script tx)
    let totalSigOps := totalSigOps + countSigOps env tx (isCoinBaseTx tx) isSSGen
    rejectIf (MaxSigOpsPerBlock < totalSigOps) (Err.rule .tooManySigOps)
    addSigOps totalSigOps txs

/-- Whether the block is checked as a key block. -/
def keyBlock (block : MsgBlock) (noPowCheck : Bool) : Bool :=
  !noPowCheck && isKeyBlock env block.header

/-- Whether the block is to have a second coinbase. -/
def secondCoinbase (block : MsgBlock) (noPowCheck : Bool) : Bool :=
  noPowCheck || keyBlock env block noPowCheck

/-- `checkBlockSanity`, with every access to a slice. -/
def checkBlockSanity (block : MsgBlock) (adjustedTime : ℤ) (noPowCheck : Bool) :
    Except Err PUnit := do
  checkBlockHeaderSanity env block adjustedTime noPowCheck
  rejectIf (block.transactions = []) (Err.rule .noTransactions)
  rejectIf (MaxBlockPayload < env.blockSize block) (Err.rule .blockTooBig)
  rejectIf (block.header.size < u32 (env.blockSize block)) (Err.rule .wrongBlockSize)
  checkCoinbases block.transactions (secondCoinbase env block noPowCheck)
  block.transactions.forM (checkRegularTx env)
  checkStakeTreeIf env (keyBlock env block noPowCheck) block
  checkMerkleRoots env block (keyBlock env block noPowCheck) (!secondCoinbase env block noPowCheck)
  rejectIf (¬ ((block.transactions ++ block.sTransactions).map env.txHash).Nodup)
    (Err.rule .duplicateTx)
  addSigOps env 0 (block.transactions ++ block.sTransactions)
  rejectIf (u32 (block.header.keyHeight + 1) < env.params.stakeValidationHeight ∧
    block.header.voteBits ≠ earlyVoteBitsValue) (Err.rule .invalidEarlyVoteBits)

end Checks

/-! ## Steps that stay in range -/

section Steps

variable {env : Env} {tx : MsgTx}

theorem bind_const_punit {ε : Type} (x : Except ε PUnit.{1}) : (x >>= fun _ => pure ⟨⟩) = x := by
  rcases x with e | ⟨⟩ <;> rfl

theorem forM_singleton {ε α : Type} (f : α → Except ε PUnit.{1}) (a : α) : [a].forM f = f a :=
  bind_const_punit (f a)

theorem checkInputKinds_eq :
    checkInputKinds env tx (Blockchain.isSSGen env tx) = Blockchain.checkInputKinds env tx := by
  unfold checkInputKinds Blockchain.checkInputKinds
  by_cases hcoinbase : isCoinBaseTx tx = true
  · obtain ⟨txIn, hin⟩ : ∃ txIn, tx.txIn = [txIn] := by
      unfold isCoinBaseTx at hcoinbase
      split at hcoinbase
      · exact ⟨_, ‹_›⟩
      · cases hcoinbase
    rw [if_pos hcoinbase, if_pos hcoinbase, hin, forM_singleton]
    rfl
  · rw [if_neg hcoinbase, if_neg hcoinbase]
    by_cases hvote : Blockchain.isSSGen env tx = true
    · obtain ⟨stakebase, ticket, hin⟩ : ∃ stakebase ticket, tx.txIn = [stakebase, ticket] := by
        refine length_eq_two.1 ?_
        simp only [Blockchain.isSSGen, Stake.isSSGen, NumInputsPerSSGen, Bool.and_eq_true,
          beq_iff_eq] at hvote
        exact hvote.1.1.1.1.1
      rw [if_pos hvote, if_pos hvote, hin, head?_cons, Option.toList_some, forM_singleton,
        tail_cons, forM_singleton, bind_assoc]
      rfl
    · rw [if_neg hvote, if_neg hvote]

theorem avoids_addOutputAmount (total : ℤ) (out : TxOut) :
    Avoids .panic (addOutputAmount env total out) := by
  simp only [addOutputAmount, avoids_rejectIf_bind (show Err.rule .badTxOutValue ≠ .panic by simp),
    avoids_pure, implies_true]

theorem avoids_checkInputKinds : Avoids .panic (Blockchain.checkInputKinds env tx) := by
  unfold Blockchain.checkInputKinds
  split_ifs
  · simp
  · exact avoids_bind.2 ⟨by simp, fun _ _ => by simp⟩
  · simp

/-- The total model does not panic. -/
theorem avoids_checkTransactionSanity_total :
    Avoids .panic (Blockchain.checkTransactionSanity env tx) := by
  simp only [Blockchain.checkTransactionSanity, ne_eq, reduceCtorEq, not_false_eq_true,
    avoids_rejectIf_bind]
  intro _ _ _
  refine avoids_bind.2 ⟨avoids_foldlM_of_forall avoids_addOutputAmount _ _, fun _ _ => ?_⟩
  exact avoids_bind.2 ⟨avoids_checkInputKinds, fun _ _ => by simp⟩

/-- A vote without vote bits for which `CheckTransactionSanity` comes to the question whether it is
one. -/
structure ReachesVote (env : Env) (tx : MsgTx) : Prop where
  lone : LoneReference env.script tx
  size : env.txSize tx ≤ env.params.maxTxSize
  amounts : ∃ total, tx.txOut.foldlM (addOutputAmount env) 0 = .ok total

/-- Without a vote the two models of the check agree. -/
theorem checkTransactionSanity_eq (h : ¬ ReachesVote env tx) :
    checkTransactionSanity env tx = Blockchain.checkTransactionSanity env tx := by
  refine bind_congr_ok fun _ _ => bind_congr_ok fun _ _ => bind_congr_ok fun _ hsize =>
    bind_congr_ok fun total htotal => ?_
  have hlone : ¬ LoneReference env.script tx := fun hlone =>
    h ⟨hlone, not_lt.1 (rejectIf_eq_ok.1 hsize), total, htotal⟩
  rw [answer_eq (avoids_isSSGen.2 hlone) isSSGen_eq_ok, ok_bind, checkInputKinds_eq]

/-- The check panics on a transaction that reaches the vote only. -/
theorem avoids_checkTransactionSanity :
    Avoids .panic (checkTransactionSanity env tx) ↔ ¬ ReachesVote env tx := by
  constructor
  · rintro h ⟨hlone, hsize, total, htotal⟩
    obtain ⟨out, hout, -⟩ := hlone.output
    have hin : tx.txIn ≠ [] := by
      intro hnil
      have hinputs := hlone.inputs
      rw [hnil] at hinputs
      cases hinputs
    have hpanic : Stake.Untrusted.isSSGen env.script tx = .error .panic := by
      by_contra hne
      exact avoids_isSSGen.1 hne hlone
    refine h ?_
    rw [checkTransactionSanity, rejectIf_bind hin, rejectIf_bind (by simp [hout]),
      rejectIf_bind (not_lt.2 hsize), htotal, ok_bind, hpanic]
    rfl
  · intro h
    rw [checkTransactionSanity_eq h]
    exact avoids_checkTransactionSanity_total

theorem checkProofOfStake_eq (block : MsgBlock) :
    checkProofOfStake env block = Blockchain.checkProofOfStake env block := by
  refine forM_eq_of_forall (P := fun _ => True) (fun tx _ => ?_) (fun _ _ _ _ _ => trivial)
  rw [checkCommitValue, answer_eq (avoids_isSStx _ _) isSStx_eq_ok, ok_bind]
  by_cases hticket : Stake.isSStx env.script tx = true
  · obtain ⟨out, outs, hout⟩ : ∃ out outs, tx.txOut = out :: outs := by
      refine exists_cons_of_ne_nil fun hnil => ?_
      simp [Stake.isSStx, hnil] at hticket
    rw [if_pos hticket, if_pos hticket, index_of_lt (by simp [hout]), ok_bind]
    simp [hout]
  · rw [if_neg hticket, if_neg hticket]

theorem checkBlockHeaderSanity_eq (block : MsgBlock) (adjustedTime : ℤ) (noPowCheck : Bool) :
    checkBlockHeaderSanity env block adjustedTime noPowCheck =
      Blockchain.checkBlockHeaderSanity env block adjustedTime noPowCheck := by
  rw [checkBlockHeaderSanity, Blockchain.checkBlockHeaderSanity, checkProofOfStake_eq]

theorem checkCoinbases_eq {transactions : List MsgTx} (hne : transactions ≠ [])
    (secondCoinbase : Bool) :
    checkCoinbases transactions secondCoinbase =
      Blockchain.checkCoinbases transactions (if secondCoinbase then 2 else 1) := by
  obtain ⟨first, transactions, rfl⟩ := exists_cons_of_ne_nil hne
  rw [checkCoinbases, Blockchain.checkCoinbases, index_of_lt (by simp), ok_bind, getElem_cons_zero]
  cases secondCoinbase with
  | false =>
    rw [if_neg Bool.false_ne_true, take_succ_cons, take_zero, forM_singleton, checkSecondCoinbase,
      if_neg Bool.false_ne_true, slice_of_le (by simp) le_rfl, take_length]
    refine bind_congr_ok fun _ _ => ?_
    rw [rejectIf, if_neg (by simp)]
    rfl
  | true =>
    rw [if_pos rfl, checkSecondCoinbase, if_pos rfl]
    cases transactions with
    | nil =>
      rw [take_of_length_le (by simp), forM_singleton]
      refine bind_congr_ok fun _ _ => ?_
      rfl
    | cons second transactions =>
      rw [take_succ_cons, take_succ_cons, take_zero, List.forM, forM_singleton,
        index_of_lt (by simp), ok_bind, getElem_cons_succ, getElem_cons_zero, bind_assoc]
      refine bind_congr_ok fun _ _ => bind_congr_ok fun _ _ => ?_
      rw [slice_of_le (by simp) le_rfl, ok_bind, take_length, rejectIf_bind (by simp)]

/-- A regular transaction panics as a lone reference only. -/
theorem avoids_checkRegularTx :
    Avoids .panic (checkRegularTx env tx) ↔ ¬ LoneReference env.script tx := by
  constructor
  · exact fun h => avoids_determineTxType.1 (avoids_bind.1 h).1
  · intro h
    rw [checkRegularTx, determineTxType_eq h, ok_bind, avoids_rejectIf_bind (by simp)]
    exact fun _ => avoids_checkTransactionSanity.2 fun hreaches => h hreaches.lone

/-- Without a lone reference the two models agree. -/
theorem checkRegularTx_eq (h : ¬ LoneReference env.script tx) :
    checkRegularTx env tx = Blockchain.checkRegularTx env tx := by
  rw [checkRegularTx, determineTxType_eq h, ok_bind, checkTransactionSanity_eq fun hreaches =>
    h hreaches.lone]
  rfl

/-- Without a vote the two models of the check agree. -/
theorem checkStakeTx_eq (h : ¬ ReachesVote env tx) :
    checkStakeTx env tx = Blockchain.checkStakeTx env tx := by
  rw [checkStakeTx, Blockchain.checkStakeTx, checkTransactionSanity_eq h]
  refine bind_congr_ok fun _ hsane => ?_
  -- a transaction that is sane has passed the checks before the question whether it is a vote
  have hlone : ¬ LoneReference env.script tx := by
    intro hlone
    simp only [Blockchain.checkTransactionSanity, bind_eq_ok, rejectIf_eq_ok, exists_const,
      not_lt] at hsane
    obtain ⟨-, -, hsize, total, htotal, -⟩ := hsane
    exact h ⟨hlone, hsize, total, htotal⟩
  rw [determineTxType_eq hlone, ok_bind]

theorem avoids_checkStakeTx : Avoids .panic (checkStakeTx env tx) ↔ ¬ ReachesVote env tx := by
  constructor
  · exact fun h => avoids_checkTransactionSanity.1 (avoids_bind.1 h).1
  · intro h
    rw [checkStakeTx_eq h]
    exact avoids_bind.2 ⟨avoids_checkTransactionSanity_total, fun _ _ =>
      avoids_rejectIf_of_ne (by simp)⟩

variable {block : MsgBlock} {keyBlock : Bool} {total : ℕ} {txs : List MsgTx}

/-- The first stake transaction that reaches the vote is where the tree panics. -/
theorem avoids_checkStakeTreeIf :
    Avoids .panic (checkStakeTreeIf env keyBlock block) ↔ (keyBlock = true → ∀ l₁ tx l₂,
      block.sTransactions = l₁ ++ tx :: l₂ → (∀ b ∈ l₁, Blockchain.checkStakeTx env b = .ok ⟨⟩) →
        ¬ ReachesVote env tx) := by
  rw [checkStakeTreeIf]
  cases keyBlock with
  | false => exact iff_of_true (avoids_pure _) fun h => absurd h Bool.false_ne_true
  | true =>
    rw [if_pos rfl, checkStakeTree, avoids_bind,
      avoids_forM_of_eq (fun _ => avoids_checkStakeTx) (fun _ => checkStakeTx_eq)]
    refine ⟨fun h _ => h.1, fun h => ⟨h rfl, fun _ _ => ?_⟩⟩
    simp

theorem checkStakeTreeIf_eq (h : keyBlock = true → ∀ l₁ tx l₂,
      block.sTransactions = l₁ ++ tx :: l₂ → (∀ b ∈ l₁, Blockchain.checkStakeTx env b = .ok ⟨⟩) →
        ¬ ReachesVote env tx) :
    checkStakeTreeIf env keyBlock block = Blockchain.checkStakeTreeIf env keyBlock block := by
  cases keyBlock with
  | false => rfl
  | true =>
    rw [checkStakeTreeIf, Blockchain.checkStakeTreeIf, if_pos rfl, if_pos rfl, checkStakeTree,
      Blockchain.checkStakeTree, forM_eq_of_forall (fun tx => checkStakeTx_eq) (h rfl)]

theorem checkMerkleRoot_eq (root : Hash) (transactions : List MsgTx) (compressed : Bool) :
    checkMerkleRoot env root transactions compressed =
      (merkleRoot env transactions compressed >>= fun calculated =>
      rejectIf (some root ≠ calculated) (Err.rule .badMerkleRoot)) := by
  rw [checkMerkleRoot, ← buildMerkleTreeStore_last, bind_assoc]

/-- The roots read from the store are those of the model. -/
theorem checkMerkleRoots_eq (block : MsgBlock) (keyBlock compressed : Bool) :
    checkMerkleRoots env block keyBlock compressed =
      Blockchain.checkMerkleRoots env block keyBlock compressed := by
  have hstake : ∃ root, merkleRoot env block.sTransactions false = .ok root := by
    by_cases hnil : block.sTransactions = []
    · exact ⟨_, by rw [merkleRoot, if_pos hnil]; rfl⟩
    · exact ⟨_, by rw [merkleRoot, if_neg hnil, if_neg Bool.false_ne_true]; rfl⟩
  obtain ⟨root, hroot⟩ := hstake
  rw [checkMerkleRoots, Blockchain.checkMerkleRoots, checkMerkleRoot_eq, checkMerkleRoot_eq, hroot,
    bind_assoc]
  refine bind_congr_ok fun _ _ => bind_congr_ok fun _ _ => ?_
  rw [ok_bind, ok_bind]
  cases keyBlock with
  | false => rw [if_neg Bool.false_ne_true, rejectIf, if_neg (by simp)]; rfl
  | true => simp

/-- The roots panic on a coinbase that is too short. -/
theorem avoids_checkMerkleRoots {keyBlock compressed : Bool} :
    Avoids .panic (Blockchain.checkMerkleRoots env block keyBlock compressed) ↔
      (compressed = true → ¬ ShortWindow block.transactions) := by
  rw [Blockchain.checkMerkleRoots, avoids_bind, avoids_merkleRoot]
  refine ⟨fun h => h.1, fun h => ⟨h, fun root _ => ?_⟩⟩
  rw [avoids_rejectIf_bind (by simp)]
  intro _
  exact avoids_bind.2 ⟨avoids_merkleRoot.2 fun hfalse =>
    absurd hfalse Bool.false_ne_true, fun _ _ => by simp⟩

/-- The number of signature operations of transactions. -/
def sigOps (env : Env) (txs : List MsgTx) : ℕ :=
  (txs.map fun tx => countSigOps env tx (isCoinBaseTx tx) (Stake.isSSGen env.script tx)).sum

/-- Counting panics at a lone reference before the limit is passed. -/
theorem avoids_addSigOps (htotal : total ≤ MaxSigOpsPerBlock) :
    Avoids .panic (addSigOps env total txs) ↔ ∀ l₁ tx l₂, txs = l₁ ++ tx :: l₂ →
      total + sigOps env l₁ ≤ MaxSigOpsPerBlock → ¬ LoneReference env.script tx := by
  induction txs generalizing total with
  | nil =>
    refine iff_of_true (avoids_pure _) fun l₁ tx l₂ h => ?_
    exact absurd h (by simp)
  | cons b txs ih =>
    have hanswer : Avoids .panic (answer (Stake.Untrusted.isSSGen env.script b)) ↔
        ¬ LoneReference env.script b := by
      rw [avoids_answer, avoids_isSSGen]
    rw [addSigOps, avoids_bind_of_eq hanswer fun h => answer_eq (avoids_isSSGen.2 h) isSSGen_eq_ok]
    constructor
    · rintro ⟨hfirst, hrest⟩ l₁ tx l₂ hl hcount
      rcases cons_eq_append_iff.1 hl with ⟨rfl, ha⟩ | ⟨l₁, rfl, -⟩
      · obtain ⟨rfl, -⟩ := cons.inj ha
        exact hfirst
      · have hsum : total + countSigOps env b (isCoinBaseTx b) (Stake.isSSGen env.script b) +
            sigOps env l₁ ≤ MaxSigOpsPerBlock := by
          rw [sigOps, map_cons, sum_cons, ← sigOps] at hcount
          omega
        have hloop := hrest _ rfl
        rw [avoids_rejectIf_bind (by simp)] at hloop
        exact (ih (by omega)).1 (hloop (by omega)) l₁ tx l₂ (cons.inj hl).2 hsum
    · intro h
      refine ⟨h [] b txs rfl (by simpa [sigOps] using htotal), fun vote hvote => ?_⟩
      obtain rfl := Except.ok.inj hvote
      rw [avoids_rejectIf_bind (by simp)]
      intro hcount
      refine (ih (by omega)).2 fun l₁ tx l₂ hl hsum =>
        h (b :: l₁) tx l₂ (by rw [hl, cons_append]) ?_
      rw [sigOps, map_cons, sum_cons, ← sigOps]
      omega

theorem addSigOps_eq (htotal : total ≤ MaxSigOpsPerBlock)
    (h : Avoids .panic (addSigOps env total txs)) : addSigOps env total txs =
      rejectIf (MaxSigOpsPerBlock < total + sigOps env txs) (Err.rule .tooManySigOps) := by
  induction txs generalizing total with
  | nil =>
    rw [rejectIf, if_neg (not_lt.2 (by simpa [sigOps] using htotal))]
    rfl
  | cons b txs ih =>
    have hlone : ¬ LoneReference env.script b :=
      (avoids_addSigOps htotal).1 h [] b txs rfl (by simpa [sigOps] using htotal)
    rw [addSigOps, answer_eq (avoids_isSSGen.2 hlone) isSSGen_eq_ok, ok_bind] at h ⊢
    rw [avoids_rejectIf_bind (by simp)] at h
    have hsum : total + sigOps env (b :: txs) =
        total + countSigOps env b (isCoinBaseTx b) (Stake.isSSGen env.script b) +
          sigOps env txs := by
      rw [sigOps, map_cons, sum_cons, ← sigOps, Nat.add_assoc]
    by_cases hmany :
      MaxSigOpsPerBlock < total + countSigOps env b (isCoinBaseTx b) (Stake.isSSGen env.script b)
    · dsimp only
      rw [rejectIf, if_pos hmany, rejectIf, if_pos (by omega)]
      rfl
    · dsimp only
      rw [rejectIf_bind hmany, ih (by omega) (h hmany), hsum]

end Steps

/-! ## Whole blocks -/

section Blocks

variable (env : Env) (block : MsgBlock) (adjustedTime : ℤ) (noPowCheck : Bool)

/-- The checks before the first transaction is looked at. -/
structure Opens : Prop where
  header : Blockchain.checkBlockHeaderSanity env block adjustedTime noPowCheck = .ok ⟨⟩
  nonempty : block.transactions ≠ []
  payload : env.blockSize block ≤ MaxBlockPayload
  size : u32 (env.blockSize block) ≤ block.header.size

/-- The block has passed the checks up to its coinbases. -/
structure HasCoinbases : Prop extends Opens env block adjustedTime noPowCheck where
  coinbases : Blockchain.checkCoinbases block.transactions
    (if secondCoinbase env block noPowCheck then 2 else 1) = .ok ⟨⟩

/-- The checks up to the last regular transaction. -/
structure HasRegularTree : Prop extends HasCoinbases env block adjustedTime noPowCheck where
  regular : ∀ tx ∈ block.transactions, Blockchain.checkRegularTx env tx = .ok ⟨⟩

/-- The checks up to the last stake transaction. -/
structure HasTrees : Prop extends HasRegularTree env block adjustedTime noPowCheck where
  stake : Blockchain.checkStakeTreeIf env (keyBlock env block noPowCheck) block = .ok ⟨⟩

/-- The checks before signature operations are counted. -/
structure HasRoots : Prop extends HasTrees env block adjustedTime noPowCheck where
  roots : Blockchain.checkMerkleRoots env block (keyBlock env block noPowCheck)
    (!secondCoinbase env block noPowCheck) = .ok ⟨⟩
  nodup : ((block.transactions ++ block.sTransactions).map env.txHash).Nodup

/-- Where the checks before it pass, each access that is not guarded by one of them stays in range:
a second coinbase is there, the script of a micro block's coinbase does not have 36 or 37 bytes, and
no vote without vote bits is classified. -/
structure StaysInRange : Prop where
  second : Opens env block adjustedTime noPowCheck →
    (∀ tx ∈ block.transactions.head?, isCoinBaseTx tx = true) →
    secondCoinbase env block noPowCheck = true → 2 ≤ block.transactions.length
  regular : HasCoinbases env block adjustedTime noPowCheck →
    ∀ l₁ tx l₂, block.transactions = l₁ ++ tx :: l₂ →
    (∀ b ∈ l₁, Blockchain.checkRegularTx env b = .ok ⟨⟩) → ¬ LoneReference env.script tx
  stake : HasRegularTree env block adjustedTime noPowCheck → keyBlock env block noPowCheck = true →
    ∀ l₁ tx l₂, block.sTransactions = l₁ ++ tx :: l₂ →
    (∀ b ∈ l₁, Blockchain.checkStakeTx env b = .ok ⟨⟩) → ¬ ReachesVote env tx
  window : HasTrees env block adjustedTime noPowCheck →
    secondCoinbase env block noPowCheck = false →
    ¬ ShortWindow block.transactions
  sigOps : HasRoots env block adjustedTime noPowCheck → ∀ l₁ tx l₂,
    block.transactions ++ block.sTransactions = l₁ ++ tx :: l₂ → sigOps env l₁ ≤ MaxSigOpsPerBlock →
      ¬ LoneReference env.script tx

end Blocks

section Main

variable {env : Env} {block : MsgBlock} {adjustedTime : ℤ} {noPowCheck : Bool}

/-- The coinbases panic where their outputs are missing. -/
theorem avoids_checkCoinbases {transactions : List MsgTx} (hne : transactions ≠ [])
    (second : Bool) :
    Avoids .panic (Blockchain.checkCoinbases transactions (if second then 2 else 1)) ↔
      ((∀ tx ∈ transactions.head?, isCoinBaseTx tx = true) → second = true →
        2 ≤ transactions.length) := by
  obtain ⟨first, transactions, rfl⟩ := exists_cons_of_ne_nil hne
  have htail : ∀ count, Avoids .panic ((drop count (first :: transactions)).forM fun tx =>
      rejectIf (isCoinBaseTx tx = true) (Err.rule .multipleCoinbases)) := fun count => by
    simp
  have hfront : ∀ count, Avoids .panic ((take count (first :: transactions)).forM fun tx =>
      rejectIf (¬ isCoinBaseTx tx = true) (Err.rule .firstTxNotCoinbase)) := fun count => by
    simp
  rw [Blockchain.checkCoinbases, avoids_bind, and_iff_right (hfront _)]
  simp only [avoids_bind, htail, implies_true, and_true, avoids_rejectIf, ne_eq, not_true_eq_false,
    imp_false, not_lt,
    forM_eq_ok, rejectIf_eq_ok, not_not, head?_cons, Option.mem_some_iff, forall_eq']
  cases second with
  | false => simp
  | true =>
    cases transactions with
    | nil | cons => simp

theorem avoids_checkBlockHeaderSanity :
    Avoids .panic (Blockchain.checkBlockHeaderSanity env block adjustedTime noPowCheck) := by
  rw [Blockchain.checkBlockHeaderSanity]
  refine avoids_bind.2 ⟨by simp [checkProofOfWork], fun _ _ =>
    avoids_bind.2 ⟨avoids_forM_of_forall fun tx _ => ?_,
    fun _ _ => by simp⟩⟩
  split_ifs <;> simp

/-- The blocks on which `checkBlockSanity` does not panic. -/
theorem avoids_checkBlockSanity_iff_staysInRange :
    Avoids .panic (checkBlockSanity env block adjustedTime noPowCheck) ↔
      StaysInRange env block adjustedTime noPowCheck := by
  simp only [checkBlockSanity, checkBlockHeaderSanity_eq, avoids_bind,
    avoids_checkBlockHeaderSanity, avoids_rejectIf,
    rejectIf_eq_ok, checkMerkleRoots_eq, avoids_checkMerkleRoots, avoids_checkStakeTreeIf,
    avoids_forM_of_eq (fun _ => avoids_checkRegularTx) (fun _ => checkRegularTx_eq),
    ne_eq, reduceCtorEq, not_false_eq_true, implies_true, true_and, and_true, forall_const, not_lt]
  constructor
  · intro h
    -- what `h` says of each stage once the stages before it have passed
    have h1 := fun ho : Opens env block adjustedTime noPowCheck =>
      h ⟨⟩ ho.header ho.nonempty ho.payload ho.size
    have h2 := fun hc : HasCoinbases env block adjustedTime noPowCheck =>
      (h1 hc.toOpens).2 ⟨⟩ ((checkCoinbases_eq hc.nonempty _).trans hc.coinbases)
    have h3 := fun hr : HasRegularTree env block adjustedTime noPowCheck =>
      (h2 hr.toHasCoinbases).2 ⟨⟩
        ((forM_eq_of_forall (fun _ => checkRegularTx_eq) (h2 hr.toHasCoinbases).1).trans
        (forM_eq_ok.2 hr.regular))
    have h4 := fun ht : HasTrees env block adjustedTime noPowCheck =>
      (h3 ht.toHasRegularTree).2 ⟨⟩
        ((checkStakeTreeIf_eq (h3 ht.toHasRegularTree).1).trans ht.stake)
    have h5 := fun hs : HasRoots env block adjustedTime noPowCheck =>
      (h4 hs.toHasTrees).2 ⟨⟩ hs.roots (not_not.2 hs.nodup)
    refine ⟨fun ho => ?_, fun hc => (h2 hc).1, fun hr => (h3 hr).1, fun ht hsecond => ?_,
      fun hs l₁ tx l₂ hl hcount => ?_⟩
    · rw [← avoids_checkCoinbases ho.nonempty, ← checkCoinbases_eq ho.nonempty]
      exact (h1 ho).1
    · exact (h4 ht).1 (by rw [hsecond]; rfl)
    · exact (avoids_addSigOps (Nat.zero_le _)).1 (h5 hs) l₁ tx l₂ hl (by rwa [Nat.zero_add])
  · intro hr _ header nonempty payload size
    have ho : Opens env block adjustedTime noPowCheck := ⟨header, nonempty, payload, size⟩
    rw [checkCoinbases_eq nonempty]
    refine ⟨(avoids_checkCoinbases nonempty _).2 (hr.second ho), fun _ hcoinbases => ?_⟩
    have hc : HasCoinbases env block adjustedTime noPowCheck := ⟨ho, hcoinbases⟩
    refine ⟨hr.regular hc, fun _ hregular => ?_⟩
    rw [forM_eq_of_forall (fun _ => checkRegularTx_eq) (hr.regular hc)] at hregular
    have hrt : HasRegularTree env block adjustedTime noPowCheck := ⟨hc, forM_eq_ok.1 hregular⟩
    refine ⟨hr.stake hrt, fun _ hstake => ?_⟩
    rw [checkStakeTreeIf_eq (hr.stake hrt)] at hstake
    have ht : HasTrees env block adjustedTime noPowCheck := ⟨hrt, hstake⟩
    refine ⟨fun hcompressed => hr.window ht (by simpa using hcompressed), fun _ hroots hnodup => ?_⟩
    have hs : HasRoots env block adjustedTime noPowCheck := ⟨ht, hroots, not_not.1 hnodup⟩
    exact (avoids_addSigOps (Nat.zero_le _)).2 fun l₁ tx l₂ hl hcount =>
      hr.sigOps hs l₁ tx l₂ hl (by rwa [Nat.zero_add] at hcount)

/-- On those blocks the two models agree. -/
theorem checkBlockSanity_eq (hr : StaysInRange env block adjustedTime noPowCheck) :
    checkBlockSanity env block adjustedTime noPowCheck =
      Blockchain.checkBlockSanity env block adjustedTime noPowCheck := by
  rw [checkBlockSanity, Blockchain.checkBlockSanity, checkBlockHeaderSanity_eq, checkMerkleRoots_eq]
  refine bind_congr_ok fun _ header => bind_congr_ok fun _ hne => bind_congr_ok fun _ payload =>
    bind_congr_ok fun _ size => ?_
  rw [rejectIf_eq_ok] at hne payload size
  have ho : Opens env block adjustedTime noPowCheck :=
    ⟨header, hne, not_lt.1 payload, not_lt.1 size⟩
  rw [checkCoinbases_eq hne]
  refine bind_congr_ok fun _ hcoinbases => ?_
  have hc : HasCoinbases env block adjustedTime noPowCheck := ⟨ho, hcoinbases⟩
  rw [forM_eq_of_forall (fun _ => checkRegularTx_eq) (hr.regular hc)]
  refine bind_congr_ok fun _ hregular => ?_
  have hrt : HasRegularTree env block adjustedTime noPowCheck := ⟨hc, forM_eq_ok.1 hregular⟩
  rw [checkStakeTreeIf_eq (hr.stake hrt)]
  refine bind_congr_ok fun _ hstake => bind_congr_ok fun _ hroots =>
    bind_congr_ok fun _ hnodup => ?_
  rw [rejectIf_eq_ok, not_not] at hnodup
  have hs : HasRoots env block adjustedTime noPowCheck := ⟨⟨hrt, hstake⟩, hroots, hnodup⟩
  have hcount : Avoids .panic (addSigOps env 0 (block.transactions ++ block.sTransactions)) :=
    (avoids_addSigOps (Nat.zero_le _)).2 fun l₁ tx l₂ hl hcount =>
      hr.sigOps hs l₁ tx l₂ hl (by rwa [Nat.zero_add] at hcount)
  rw [addSigOps_eq (Nat.zero_le _) hcount, Nat.zero_add]
  rfl

end Main

/-- A key block with one regular transaction, a micro block whose coinbase has a script of 36 bytes,
and a key block with a vote without vote bits, in either tree, make the check go out of range. -/
theorem exists_checkBlockSanity_panic : checkBlockSanity (sampleEnv sampleParams)
        ⟨sampleHeader 2 2 1 0 0, [coinbaseTx 2 0 [payTo 1 1]], []⟩ 1000 false = .error .panic ∧
      checkBlockSanity (sampleEnv sampleParams)
        ⟨sampleHeader 2 2 101 0 0, [coinbaseTx 2 0 [⟨0, 0, replicate 36 0x6a⟩, payTo 1 1]], []⟩
          1000 false = .error .panic ∧
      checkBlockSanity (sampleEnv sampleParams) ⟨sampleHeader 2 2 1 0 0,
        [coinbaseTx 2 0 [payTo 1 1], coinbaseTx 3 0 [payTo 1 1], sampleVoteWithoutBits], []⟩
          1000 false = .error .panic ∧
      checkBlockSanity (sampleEnv sampleParams) ⟨sampleHeader 2 2 1 0 0,
        [coinbaseTx 2 0 [payTo 1 1], coinbaseTx 3 0 [payTo 1 1]], [sampleVoteWithoutBits]⟩
          1000 false = .error .panic := by
  decide +kernel

end Hcashd.Blockchain.Untrusted
