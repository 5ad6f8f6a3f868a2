import Hcashd.Blockchain.StakeVersionLaw
import Hcashd.Mempool.TxPool

/-!
# The index of spent outpoints

The index of the pool should have exactly the outpoints that transactions of the pool spend, and two
transactions of the pool should spend the same output only if both are votes of one ticket.

A revocation is accepted next to a vote of its ticket, and a vote next to a revocation. And where
two votes of a ticket are in the pool, the removal of one takes the ticket out of the index, though
the other one still spends it (`exists_not_exact`). Both come from `checkDoubleSpend`, which looks
at the same kind only, and from `removeFromPool`, which does not look whether the index names the
transaction that is removed.

Where no rival is in the pool when a vote or a revocation is accepted, and the transactions that a
removal takes out have no rivals, the index is exact (`exact_of_reachable`).
-/

namespace Hcashd.Mempool

open Lib Stake Blockchain List Std.ExtTreeMap

variable (env : Env)

/-- The ticket of a vote. -/
def ticketOf (tx : MsgTx) : Option OutPoint := tx.txIn[1]?.map TxIn.previousOutPoint

namespace TxPool

/-- The index agrees with the pool. -/
structure Exact (mp : TxPool) : Prop where
  /-- An outpoint is in the index exactly if some transaction of the pool spends it. -/
  mem_iff : ∀ o, isNullOutpoint o = false → ((mp.outpoints o).isSome ↔
      ∃ (hash : Hash) (desc : TxDesc), mp.pool[hash]? = some desc ∧ o ∈ spentOutPoints desc.tx)
  /-- The index names a transaction of the pool that spends it. -/
  spender : ∀ o tx, mp.outpoints o = some tx →
    ∃ desc, mp.pool[env.txHash tx]? = some desc ∧ desc.tx = tx ∧ o ∈ spentOutPoints tx
  /-- Only votes of one ticket spend the same outpoint. -/
  rivals : ∀ (o : OutPoint) (hash hash' : Hash) (desc desc' : TxDesc), isNullOutpoint o = false →
    mp.pool[hash]? = some desc → mp.pool[hash']? = some desc' → hash ≠ hash' →
    o ∈ spentOutPoints desc.tx → o ∈ spentOutPoints desc'.tx →
    desc.type = .sSGen ∧ desc'.type = .sSGen ∧ ticketOf desc.tx = some o ∧
    ticketOf desc'.tx = some o

/-- No other transaction of the pool spends what a transaction spends. -/
def Alone (mp : TxPool) (tx : MsgTx) : Prop :=
  ∀ (hash : Hash) (desc : TxDesc), mp.pool[hash]? = some desc → hash ≠ env.txHash tx →
    ∀ o ∈ spentOutPoints tx, isNullOutpoint o = false → o ∉ spentOutPoints desc.tx

/-- The transactions of the pool that build on a transaction, and the transaction itself. -/
inductive BuildsOn (mp : TxPool) (tx : MsgTx) : MsgTx → Prop
  | refl : BuildsOn mp tx tx
  | spend {x : MsgTx} {hash : Hash} {desc : TxDesc} {o : OutPoint} (hx : BuildsOn mp tx x)
    (hdesc : mp.pool[hash]? = some desc) (hspend : o ∈ spentOutPoints desc.tx)
    (ho : o.hash = env.txHash x) : BuildsOn mp tx desc.tx

/-- What is removed with a transaction is of some kind. -/
def RemovesOnly (Q : TxDesc → Prop) (mp : TxPool) (tx : MsgTx) : Prop :=
  ∀ x, mp.BuildsOn env tx x → ∀ desc, mp.pool[env.txHash x]? = some desc → Q desc

/-- What a step removes is of some kind. -/
def StepRemovesOnly (Q : TxDesc → Prop) (mp : TxPool) : PoolStep → Prop
  | .remove tx removeRedeemers => if removeRedeemers then RemovesOnly env Q mp tx
    else ∀ desc, mp.pool[env.txHash tx]? = some desc → Q desc
  | .removeDoubleSpends tx => ∀ (hash : Hash) (desc : TxDesc), mp.pool[hash]? = some desc →
    hash ≠ env.txHash tx → ∀ o ∈ spentOutPoints tx, o ∈ spentOutPoints desc.tx →
    RemovesOnly env Q mp desc.tx
  | .pruneStakeTx keyHeightByHeight requiredStakeDifficulty realKeyHeight _ =>
    ∀ (hash : Hash) (desc : TxDesc), mp.pool[hash]? = some desc →
      true ∈ pruneTests env keyHeightByHeight requiredStakeDifficulty realKeyHeight desc →
      RemovesOnly env Q mp desc.tx
  | .pruneExpiredTx realKeyHeight _ => ∀ (hash : Hash) (desc : TxDesc), mp.pool[hash]? = some desc →
    true ∈ expiredTest realKeyHeight desc → RemovesOnly env Q mp desc.tx
  | _ => True

/-- A new transaction shares an outpoint with one of the pool only if both are votes. -/
def Compatible (mp : TxPool) (tx : MsgTx) : Prop :=
  ∀ (hash : Hash) (desc : TxDesc), mp.pool[hash]? = some desc → ∀ o ∈ spentOutPoints tx,
    isNullOutpoint o = false → o ∈ spentOutPoints desc.tx → txType env tx = .sSGen ∧
    desc.type = .sSGen

/-- The step meets no rivals: what is removed is the only spender of its outpoints, a vote comes to
votes only, and a revocation to no other spender of its ticket. -/
def NoRivals (mp : TxPool) (a : PoolStep) : Prop :=
  StepRemovesOnly env (fun desc => mp.Alone env desc.tx) mp a ∧
    ∀ node tx isNew rateLimit allowHighFees, a = .accept node tx isNew rateLimit allowHighFees →
      (txType env tx = .sSGen ∨ txType env tx = .sSRtx) → mp.Compatible env tx

variable {env} {policy : Policy} {mp mp' mp'' : TxPool} {tx : MsgTx}
  {isNew rateLimit allowHighFees : Bool}
  {missing : List Hash} {node : Node} {u : PUnit}

/-- The pool has each transaction under its hash and with its type, and the index names transactions
of the pool. -/
structure Keyed (env : Env) (mp : TxPool) : Prop where
  hash_eq : ∀ (hash : Hash) (desc : TxDesc), mp.pool[hash]? = some desc → env.txHash desc.tx = hash
  type_eq : ∀ (hash : Hash) (desc : TxDesc), mp.pool[hash]? = some desc →
    desc.type = txType env desc.tx
  spender : ∀ o tx, mp.outpoints o = some tx →
    ∃ desc, mp.pool[env.txHash tx]? = some desc ∧ desc.tx = tx ∧ o ∈ spentOutPoints tx

/-- The index agrees with such a pool. -/
structure Sound (env : Env) (mp : TxPool) : Prop extends TxPool.Keyed env mp where
  index : TxPool.Exact env mp

/-- Every transaction of a pool is in another one. -/
def Within (mp' mp : TxPool) : Prop :=
  ∀ (hash : Hash) (desc : TxDesc), mp'.pool[hash]? = some desc → mp.pool[hash]? = some desc

theorem Within.refl (mp : TxPool) : Within mp mp := fun _ _ h => h

theorem Within.trans (h : Within mp'' mp') (h' : Within mp' mp) : Within mp'' mp :=
  fun hash desc hdesc => h' hash desc (h hash desc hdesc)

theorem BuildsOn.trans {x y : MsgTx} (h : BuildsOn env mp tx x) (h' : BuildsOn env mp x y) :
    BuildsOn env mp tx y := by
  induction h' with
  | refl => exact h
  | spend _ hdesc hspend ho ih => exact .spend ih hdesc hspend ho

/-- Alone in a pool is alone in a part of it. -/
theorem Alone.mono (hle : Within mp' mp) (h : Alone env mp tx) : Alone env mp' tx :=
  fun hash desc hdesc => h hash desc (hle _ _ hdesc)

theorem getElem?_removeFromPool (hash : Hash) : (mp.removeFromPool env tx).pool[hash]? =
    if hash = env.txHash tx then none else mp.pool[hash]? := by
  unfold removeFromPool
  by_cases hhash : hash = env.txHash tx
  · subst hhash
    cases hdesc : mp.pool[env.txHash tx]? with
    | none => simp [hdesc]
    | some desc => simp
  · cases hdesc : mp.pool[env.txHash tx]? with
    | none => simp [hhash]
    | some desc => simp [getElem?_erase, hhash, Ne.symm hhash]

theorem within_removeFromPool : Within (mp.removeFromPool env tx) mp := by
  intro hash desc hdesc
  rw [getElem?_removeFromPool] at hdesc
  split_ifs at hdesc
  exact hdesc

/-- A removed transaction gives its outpoints back. -/
theorem outpoints_removeFromPool {desc : TxDesc} (hdesc : mp.pool[env.txHash tx]? = some desc)
    (o : OutPoint) :
    (mp.removeFromPool env tx).outpoints o = if o ∈ spentOutPoints desc.tx then none
      else mp.outpoints o := by
  unfold removeFromPool
  rw [hdesc]

theorem removeFromPool_of_none (hnone : mp.pool[env.txHash tx]? = none) :
    mp.removeFromPool env tx = mp := by
  unfold removeFromPool
  rw [hnone]

/-- A removal keeps the pool keyed. -/
theorem Keyed.removeFromPool (h : Keyed env mp) : Keyed env (mp.removeFromPool env tx) where
  hash_eq hash desc hdesc := h.hash_eq hash desc (within_removeFromPool _ _ hdesc)
  type_eq hash desc hdesc := h.type_eq hash desc (within_removeFromPool _ _ hdesc)
  spender o x hx := by
    cases hremoved : mp.pool[env.txHash tx]? with
    | none =>
      rw [removeFromPool_of_none hremoved] at hx ⊢
      exact h.spender o x hx
    | some removed =>
      rw [outpoints_removeFromPool hremoved] at hx
      split_ifs at hx with hmem
      obtain ⟨desc, hdesc, rfl, hspend⟩ := h.spender o x hx
      refine ⟨desc, ?_, rfl, hspend⟩
      rw [getElem?_removeFromPool, if_neg, hdesc]
      intro hsame
      rw [hsame, hremoved] at hdesc
      exact hmem (Option.some.inj hdesc ▸ hspend)

theorem Keyed.mem_iff (h : Keyed env mp) {o : OutPoint} (hmem : ∀ (hash : Hash) (desc : TxDesc),
      mp.pool[hash]? = some desc → o ∈ spentOutPoints desc.tx → (mp.outpoints o).isSome) :
    (mp.outpoints o).isSome ↔
      ∃ (hash : Hash) (desc : TxDesc), mp.pool[hash]? = some desc ∧ o ∈ spentOutPoints desc.tx := by
  refine ⟨fun hsome => ?_, fun ⟨hash, desc, hdesc, hspend⟩ => hmem hash desc hdesc hspend⟩
  obtain ⟨x, hx⟩ := Option.isSome_iff_exists.1 hsome
  obtain ⟨desc, hdesc, rfl, hspend⟩ := h.spender o x hx
  exact ⟨_, desc, hdesc, hspend⟩

/-- A sound pool stays sound if nobody shares the outpoints. -/
theorem Sound.removeFromPool (h : Sound env mp)
    (halone : ∀ desc, mp.pool[env.txHash tx]? = some desc → Alone env mp desc.tx) :
    Sound env (mp.removeFromPool env tx) := by
  have hkeyed : Keyed env (mp.removeFromPool env tx) := h.toKeyed.removeFromPool
  refine ⟨hkeyed, fun o ho => hkeyed.mem_iff fun hash desc hdesc hspend => ?_, hkeyed.spender,
    fun o hash hash' desc desc' ho hdesc hdesc' => h.index.rivals o hash hash' desc desc' ho
      (within_removeFromPool _ _ hdesc) (within_removeFromPool _ _ hdesc')⟩
  have hsome := (h.index.mem_iff o ho).2 ⟨hash, desc, within_removeFromPool _ _ hdesc, hspend⟩
  cases hremoved : mp.pool[env.txHash tx]? with
  | none => rwa [removeFromPool_of_none hremoved]
  | some removed =>
    -- A transaction that was left in spends nothing that the removed one spends.
    rw [outpoints_removeFromPool hremoved, if_neg]
    · exact hsome
    · intro hmem
      rw [getElem?_removeFromPool, ← h.hash_eq _ _ hremoved] at hdesc
      split_ifs at hdesc with hne
      exact halone removed hremoved hash desc hdesc hne o hmem ho hspend

theorem getElem?_addTransaction (hnew : mp.pool[env.txHash tx]? = none) {type : TxType}
    {height : ℕ} {fee : ℤ} {hash : Hash} {desc : TxDesc} :
    (mp.addTransaction env tx type height fee).pool[hash]? = some desc ↔
      (hash = env.txHash tx ∧ desc = ⟨tx, type, height, fee⟩) ∨ mp.pool[hash]? = some desc := by
  by_cases hhash : hash = env.txHash tx
  · subst hhash
    simp [TxPool.addTransaction, hnew, eq_comm]
  · simp [TxPool.addTransaction, Std.ExtTreeMap.getElem?_insert, hhash, Ne.symm hhash]

/-- A new transaction keeps the pool keyed. -/
theorem Keyed.addTransaction (h : Keyed env mp) (hnew : mp.pool[env.txHash tx]? = none) (height : ℕ)
    (fee : ℤ) :
    Keyed env (mp.addTransaction env tx (txType env tx) height fee) := by
  constructor
  · intro hash desc hdesc
    rcases (getElem?_addTransaction hnew).1 hdesc with ⟨rfl, rfl⟩ | hdesc
    · rfl
    · exact h.hash_eq _ _ hdesc
  · intro hash desc hdesc
    rcases (getElem?_addTransaction hnew).1 hdesc with ⟨rfl, rfl⟩ | hdesc
    · rfl
    · exact h.type_eq _ _ hdesc
  · intro o x hx
    simp only [TxPool.addTransaction] at hx
    split_ifs at hx with hmem
    · obtain rfl := Option.some.inj hx
      exact ⟨_, (getElem?_addTransaction hnew).2 (.inl ⟨rfl, rfl⟩), rfl, hmem⟩
    · obtain ⟨desc, hdesc, rfl, hspend⟩ := h.spender o x hx
      exact ⟨desc, (getElem?_addTransaction hnew).2 (.inr hdesc), rfl, hspend⟩

theorem Keyed.of_eq (h : Keyed env mp) (hpool : mp'.pool = mp.pool)
    (houtpoints : mp'.outpoints = mp.outpoints) :
    Keyed env mp' := by
  obtain ⟨pool, orphans, outpoints, votes⟩ := mp'
  obtain rfl : pool = mp.pool := hpool
  obtain rfl : outpoints = mp.outpoints := houtpoints
  exact ⟨h.hash_eq, h.type_eq, h.spender⟩

theorem insertVote_eq (mp : TxPool) (ssgen : MsgTx) :
    (mp.insertVote env ssgen).pool = mp.pool ∧
    (mp.insertVote env ssgen).outpoints = mp.outpoints := by
  unfold insertVote
  dsimp only
  split_ifs <;> exact ⟨rfl, rfl⟩

/-! ## Removals

Whatever the removal of single transactions keeps is kept by all that remove transactions with those
that spend from them. -/

section Removals

variable {K : TxPool → Prop} {Q : TxDesc → Prop}

/-- What removals have left of a pool. -/
structure Left (env : Env) (K : TxPool → Prop) (mp mp' : TxPool) : Prop where
  keyed : Keyed env mp'
  within : Within mp' mp
  kept : K mp'

variable (hK : ∀ m x, Left env K mp m → (∀ desc, mp.pool[env.txHash x]? = some desc → Q desc) →
  K (m.removeFromPool env x))

include hK

theorem Left.removeFromPool (h : Left env K mp mp')
    (hQ : ∀ desc, mp.pool[env.txHash tx]? = some desc → Q desc) :
    Left env K mp (mp'.removeFromPool env tx) :=
  ⟨h.keyed.removeFromPool, within_removeFromPool.trans h.within, hK mp' tx h hQ⟩

/-- A removal with all that builds on it. -/
theorem Left.removeTransactionFuel {fuel : ℕ} {removeRedeemers : Bool} (h : Left env K mp mp')
    (hQ : if removeRedeemers then RemovesOnly env Q mp tx else ∀ desc,
      mp.pool[env.txHash tx]? = some desc → Q desc)
    (hrun : removeTransactionFuel env fuel mp' tx removeRedeemers = .ok mp'') :
    Left env K mp mp'' := by
  induction fuel generalizing mp' mp'' tx removeRedeemers with
  | zero => exact nomatch hrun
  | succ fuel ih =>
    simp only [TxPool.removeTransactionFuel, bind_eq_ok, pure_eq_ok] at hrun
    obtain ⟨mid, hloop, rfl⟩ := hrun
    cases removeRedeemers with
    | false =>
      obtain rfl := foldlM_nil_eq_ok.1 hloop
      exact h.removeFromPool hK hQ
    | true =>
      -- The redeemers are taken out first.
      refine (foldlM_invariant (Left env K mp) ?_ h hloop).removeFromPool hK (hQ tx .refl)
      intro o ho m m' hm hstep
      cases hredeemer : m.outpoints o with
      | none =>
        rw [hredeemer] at hstep
        obtain rfl := pure_eq_ok.1 hstep
        exact hm
      | some redeemer =>
        rw [hredeemer] at hstep
        obtain ⟨desc, hdesc, rfl, hspend⟩ := hm.keyed.spender o redeemer hredeemer
        have hash_eq : o.hash = env.txHash tx := by
          obtain ⟨i, -, rfl⟩ := mem_map.1 ho
          rfl
        have hredeems : RemovesOnly env Q mp desc.tx := fun y hy =>
          hQ y (.trans (.spend .refl (hm.within _ _ hdesc) hspend hash_eq) hy)
        exact ih hm (show if true = true then _ else _ from hredeems) hstep

/-- The same with the fuel that suffices. -/
theorem Left.removeTransaction (h : Left env K mp mp') (hQ : RemovesOnly env Q mp tx)
    (hrun : mp'.removeTransaction env tx true = .ok mp'') : Left env K mp mp'' :=
  h.removeTransactionFuel hK (show if true = true then _ else _ from hQ) hrun

/-- Removing the double spends. -/
theorem Left.removeDoubleSpends (h : Left env K mp mp)
    (hQ : ∀ (hash : Hash) (desc : TxDesc), mp.pool[hash]? = some desc → hash ≠ env.txHash tx →
      ∀ o ∈ spentOutPoints tx, o ∈ spentOutPoints desc.tx → RemovesOnly env Q mp desc.tx)
    (hrun : mp.removeDoubleSpends env tx = .ok mp') : Left env K mp mp' := by
  refine foldlM_invariant (Left env K mp) ?_ h hrun
  intro o ho m m' hm hstep
  cases hredeemer : m.outpoints o with
  | none =>
    rw [hredeemer] at hstep
    obtain rfl := pure_eq_ok.1 hstep
    exact hm
  | some redeemer =>
    simp only [hredeemer] at hstep
    split_ifs at hstep with hsame
    · obtain rfl := pure_eq_ok.1 hstep
      exact hm
    · obtain ⟨desc, hdesc, rfl, hspend⟩ := hm.keyed.spender o redeemer hredeemer
      exact hm.removeTransaction hK (hQ _ desc (hm.within _ _ hdesc) hsame o ho hspend) hstep

/-- Pruning. -/
theorem Left.prune (h : Left env K mp mp) {tests : TxDesc → List Bool} {order : List Hash}
    (hQ : ∀ (hash : Hash) (desc : TxDesc), mp.pool[hash]? = some desc → true ∈ tests desc →
      RemovesOnly env Q mp desc.tx)
    (hrun : prune env tests mp order = .ok mp') : Left env K mp mp' := by
  refine foldlM_invariant (Left env K mp) ?_ h hrun
  intro hash _ m m' hm hstep
  cases hdesc : m.pool[hash]? with
  | none =>
    rw [hdesc] at hstep
    obtain rfl := pure_eq_ok.1 hstep
    exact hm
  | some desc =>
    rw [hdesc] at hstep
    refine foldlM_invariant (Left env K mp) ?_ hm hstep
    intro test htest n n' hn hremove
    split_ifs at hremove with hmeets
    · exact hn.removeTransaction hK (hQ hash desc (hm.within _ _ hdesc) (hmeets ▸ htest)) hremove
    · obtain rfl := pure_eq_ok.1 hremove
      exact hn

/-- What a step keeps, from what the removals of the step, the new transaction and its vote keep. -/
theorem Left.serve {a : PoolStep} (h : Left env K mp mp) (hQ : StepRemovesOnly env Q mp a)
    (haccept : ∀ node tx isNew rateLimit allowHighFees,
      a = .accept node tx isNew rateLimit allowHighFees →
      mp.pool[env.txHash tx]? = none → (∃ u, mp.checkDoubleSpend tx (txType env tx) = .ok u) →
      ∀ fee added,
        added = mp.addTransaction env tx (txType env tx) node.bestHeight fee →
        K (if txType env tx = .sSGen then added.insertVote env tx else added))
    (horphans : ∀ orphans, K { mp with orphans := orphans })
    (hrun : mp.serve env policy a = .ok mp') :
    Keyed env mp' ∧ K mp' := by
  have hkept : ∀ {m}, Left env K mp m → Keyed env m ∧ K m := fun h => ⟨h.keyed, h.kept⟩
  cases a with
  | accept node tx isNew rateLimit allowHighFees =>
    rw [TxPool.serve] at hrun
    split at hrun
    · rename_i missing accepted hrun'
      obtain rfl := Except.ok.inj hrun
      simp only [maybeAcceptTransaction, bind_eq_ok, rejectIf_eq_ok, exists_const] at hrun'
      obtain ⟨hhave, -, -, u, hdouble, -, -, view, -, -, hrun'⟩ := hrun'
      split at hrun'
      · obtain rfl := (Prod.mk.inj (pure_eq_ok.1 hrun')).2
        exact hkept h
      · simp only [bind_eq_ok, pure_eq_ok, Prod.mk.injEq] at hrun'
        obtain ⟨fee, -, -, rfl⟩ := hrun'
        rw [haveTransaction, Bool.or_eq_true, not_or, contains_eq_isSome_getElem?, Bool.not_eq_true,
          Option.isSome_eq_false_iff, Option.isNone_iff_eq_none] at hhave
        refine ⟨?_, haccept _ _ _ _ _ rfl hhave.1 ⟨u, hdouble⟩ fee _ rfl⟩
        have hkeyed := h.keyed.addTransaction hhave.1 node.bestHeight fee
        split_ifs
        · exact hkeyed.of_eq (insertVote_eq _ _).1 (insertVote_eq _ _).2
        · exact hkeyed
    · obtain rfl := Except.ok.inj hrun
      exact hkept h
  | addOrphan | removeOrphan =>
    obtain rfl := Except.ok.inj hrun
    exact ⟨h.keyed.of_eq rfl rfl, horphans _⟩
  | remove tx removeRedeemers => exact hkept (h.removeTransactionFuel hK hQ hrun)
  | removeDoubleSpends tx => exact hkept (h.removeDoubleSpends hK hQ hrun)
  | pruneStakeTx | pruneExpiredTx => exact hkept (h.prune hK hQ hrun)

end Removals

theorem Sound.left (h : Sound env mp) : Left env (Exact env) mp mp := ⟨h.toKeyed, .refl mp, h.index⟩

theorem Left.sound (h : Left env (Exact env) mp mp') : Sound env mp' := ⟨h.keyed, h.kept⟩

/-- A removed transaction without rivals leaves the index exact. -/
theorem exact_removeFromPool (m : TxPool) (x : MsgTx) (hm : Left env (Exact env) mp m)
    (halone : ∀ desc, mp.pool[env.txHash x]? = some desc → Alone env mp desc.tx) :
    Exact env (m.removeFromPool env x) :=
  (hm.sound.removeFromPool fun desc hdesc =>
    (halone desc (hm.within _ _ hdesc)).mono hm.within).index

theorem ticketOf_of_mem {o : OutPoint} (hvote : txType env tx = .sSGen)
    (hmem : o ∈ spentOutPoints tx) (ho : isNullOutpoint o = false) : ticketOf tx = some o := by
  have hssgen : isSSGen env tx = true := by
    simp only [txType, determineTxType] at hvote
    split_ifs at hvote with hsstx hssgen
    exact hssgen
  have hbase : isStakeBase tx = true := by
    simp only [Stake.isSSGen, Bool.and_eq_true] at hssgen
    exact hssgen.1.1.1.2
  unfold isStakeBase at hbase
  split at hbase
  · rename_i stakebase ticket hin
    rw [Bool.and_eq_true] at hbase
    rw [spentOutPoints, hin] at hmem
    rcases mem_cons.1 hmem with rfl | hmem
    · rw [hbase.1] at ho
      cases ho
    · obtain rfl := mem_singleton.1 hmem
      rw [ticketOf, hin]
      rfl
  · cases hbase

/-- A compatible transaction keeps the pool sound. -/
theorem Sound.addTransaction (h : Sound env mp) (hcompatible : Compatible env mp tx)
    (hnew : mp.pool[env.txHash tx]? = none) (height : ℕ) (fee : ℤ) :
    Sound env (mp.addTransaction env tx (txType env tx) height fee) := by
  have hindex : ∀ o, (mp.addTransaction env tx (txType env tx) height fee).outpoints o =
      if o ∈ spentOutPoints tx then some tx else mp.outpoints o := fun _ => rfl
  have hshared : ∀ (hash : Hash) (desc : TxDesc) (o : OutPoint), mp.pool[hash]? = some desc →
      isNullOutpoint o = false → o ∈ spentOutPoints tx → o ∈ spentOutPoints desc.tx →
      txType env tx = .sSGen ∧ desc.type = .sSGen ∧ ticketOf tx = some o ∧
      ticketOf desc.tx = some o := by
    intro hash desc o hdesc ho hmem hspend
    obtain ⟨hvote, hvote'⟩ := hcompatible hash desc hdesc o hmem ho hspend
    exact ⟨hvote, hvote', ticketOf_of_mem hvote hmem ho,
      ticketOf_of_mem (h.type_eq _ _ hdesc ▸ hvote') hspend ho⟩
  have hkeyed := h.toKeyed.addTransaction hnew height fee
  refine ⟨hkeyed, fun o ho => hkeyed.mem_iff fun hash desc hdesc hspend => ?_, hkeyed.spender, ?_⟩
  · rw [hindex]
    split_ifs with hmem
    · rfl
    · rcases (getElem?_addTransaction hnew).1 hdesc with ⟨-, rfl⟩ | hdesc
      · exact absurd hspend hmem
      · exact (h.index.mem_iff o ho).2 ⟨hash, desc, hdesc, hspend⟩
  · intro o hash hash' desc desc' ho hdesc hdesc' hne hspend hspend'
    rcases (getElem?_addTransaction hnew).1 hdesc with ⟨rfl, rfl⟩ | hdesc <;>
      rcases (getElem?_addTransaction hnew).1 hdesc' with ⟨rfl, rfl⟩ | hdesc'
    · exact absurd rfl hne
    · exact hshared hash' desc' o hdesc' ho hspend hspend'
    · obtain ⟨hvote, hvote', hticket, hticket'⟩ := hshared hash desc o hdesc ho hspend' hspend
      exact ⟨hvote', hvote, hticket', hticket⟩
    · exact h.index.rivals o hash hash' desc desc' ho hdesc hdesc' hne hspend hspend'

theorem Sound.of_eq (h : Sound env mp) (hpool : mp'.pool = mp.pool)
    (houtpoints : mp'.outpoints = mp.outpoints) :
    Sound env mp' := by
  obtain ⟨pool, orphans, outpoints, votes⟩ := mp'
  obtain rfl : pool = mp.pool := hpool
  obtain rfl : outpoints = mp.outpoints := houtpoints
  exact ⟨h.toKeyed.of_eq rfl rfl, h.index.mem_iff, h.index.spender, h.index.rivals⟩

/-- What `checkDoubleSpend` lets through is compatible, rival votes apart. -/
theorem Sound.compatible_of_checkDoubleSpend (h : Sound env mp)
    (hrivals : (txType env tx = .sSGen ∨ txType env tx = .sSRtx) → Compatible env mp tx)
    (hcheck : mp.checkDoubleSpend tx (txType env tx) = .ok u) : Compatible env mp tx := by
  unfold checkDoubleSpend at hcheck
  split at hcheck
  · rename_i htype
    exact hrivals (.inl htype)
  · rename_i htype
    exact hrivals (.inr htype)
  · rename_i hvote hrevocation
    intro hash desc hdesc o hmem ho hspend
    rw [checkPoolDoubleSpend, if_neg (not_or.2 ⟨hvote, hrevocation⟩), forM_eq_ok] at hcheck
    have hnone := rejectIf_eq_ok.1 (hcheck o hmem)
    exact absurd ((h.index.mem_iff o ho).2 ⟨hash, desc, hdesc, hspend⟩) hnone

/-- Every step without rivals keeps the pool sound. -/
theorem Sound.serve (h : Sound env mp) {a : PoolStep} (hrivals : NoRivals env mp a)
    (hrun : mp.serve env policy a = .ok mp') : Sound env mp' := by
  refine And.elim .mk (h.left.serve exact_removeFromPool hrivals.1 ?_
    (fun _ => ⟨h.index.mem_iff, h.index.spender, h.index.rivals⟩) hrun)
  rintro node tx _ _ _ ha hnew ⟨u, hcheck⟩ fee added rfl
  have hcompatible := h.compatible_of_checkDoubleSpend (hrivals.2 node tx _ _ _ ha) hcheck
  have hadded := h.addTransaction hcompatible hnew node.bestHeight fee
  split_ifs
  · exact (hadded.of_eq (insertVote_eq _ _).1 (insertVote_eq _ _).2).index
  · exact hadded.index

/-- The empty pool is sound. -/
theorem sound_empty : Sound env .empty := by
  refine ⟨⟨?_, ?_, ?_⟩, ⟨?_, ?_, ?_⟩⟩ <;> simp [TxPool.empty]

/-- Every reached pool has its transactions under their hashes. -/
theorem keyed_of_reachable {kept : TxPool → PoolStep → Prop} (h : Reachable env policy kept mp) :
    Keyed env mp := by
  induction h with
  | empty => exact sound_empty.toKeyed
  | @serve mp _ a _ _ hserve ih =>
    have hall : StepRemovesOnly env (fun _ => True) mp a := by
      cases a <;> simp [StepRemovesOnly, RemovesOnly]
    have hleft : Left env (fun _ => True) mp mp := ⟨ih, .refl mp, trivial⟩
    exact (hleft.serve (fun _ _ _ _ => trivial) hall
      (fun _ _ _ _ _ _ _ _ _ _ _ => trivial) (fun _ => trivial) hserve).1

/-- So every pool that is reached is sound. -/
theorem sound_of_reachable (h : Reachable env policy (NoRivals env) mp) : Sound env mp := by
  induction h with
  | empty => exact sound_empty
  | serve _ hrivals hserve ih => exact ih.serve hrivals hserve

/-- The index is exact in every pool that is reached without rivals. -/
theorem exact_of_reachable (h : Reachable env policy (NoRivals env) mp) : Exact env mp :=
  (sound_of_reachable h).index

/-! ## Removals return -/

/-- The transactions of a pool are numbered, each after those that it spends from. -/
def Ordered (mp : TxPool) (rank : Hash → ℕ) (size : ℕ) : Prop :=
  ∀ (hash : Hash) (desc : TxDesc), mp.pool[hash]? = some desc →
    rank hash ≤ size ∧ ∀ o ∈ spentOutPoints desc.tx, rank o.hash < rank hash

/-- Enough fuel for the ranks above suffices. -/
theorem Keyed.exists_removeTransactionFuel {rank : Hash → ℕ} {size fuel : ℕ} (h : Keyed env mp)
    (horder : Ordered mp rank size) (removeRedeemers : Bool) (hpos : 0 < fuel)
    (hfuel : size < rank (env.txHash tx) + fuel) :
    ∃ mp', removeTransactionFuel env fuel mp tx removeRedeemers = .ok mp' ∧ Keyed env mp' ∧
    Within mp' mp ∧
      mp'.pool[env.txHash tx]? = none := by
  induction fuel generalizing mp tx removeRedeemers with
  | zero => exact absurd hpos (lt_irrefl 0)
  | succ fuel ih =>
    simp only [TxPool.removeTransactionFuel, bind_eq_ok, pure_eq_ok]
    refine Exists.elim (exists_foldlM_eq_ok (fun m => Keyed env m ∧ Within m mp) ?_ ⟨h, .refl mp⟩)
      fun mid hmid =>
      ⟨_, ⟨mid, hmid.1, rfl⟩, hmid.2.1.removeFromPool, within_removeFromPool.trans hmid.2.2,
        (getElem?_removeFromPool _).trans (if_pos rfl)⟩
    rintro o ho m ⟨hm, hle⟩
    have hhash : o.hash = env.txHash tx := by
      obtain ⟨i, -, rfl⟩ := mem_map.1 (mem_ite_nil_right.1 ho).2
      rfl
    cases hredeemer : m.outpoints o with
    | none => exact ⟨m, rfl, hm, hle⟩
    | some redeemer =>
      -- A redeemer comes later, and so less fuel is enough for it.
      obtain ⟨desc, hdesc, rfl, hspend⟩ := hm.spender o redeemer hredeemer
      obtain ⟨hrank, hlater⟩ := horder _ desc (hle _ _ hdesc)
      have hlt := hhash ▸ hlater o hspend
      have hnext : size < rank (env.txHash desc.tx) + fuel := by omega
      obtain ⟨m', hm', hkeyed, hle', -⟩ :=
        ih hm (fun hash desc hdesc => horder hash desc (hle _ _ hdesc)) true
        (by omega) hnext
      exact ⟨m', hm', hkeyed, hle'.trans hle⟩

/-- A removal ends, with redeemers or without, and leaves a keyed part of the pool. Every reached
pool is keyed (`keyed_of_reachable`). -/
theorem exists_removeTransaction (rank : Hash → ℕ) (h : Keyed env mp)
    (horder : Ordered mp rank mp.pool.size)
    (tx : MsgTx) (removeRedeemers : Bool) :
    ∃ mp', mp.removeTransaction env tx removeRedeemers = .ok mp' ∧
      Keyed env mp' ∧ Within mp' mp ∧ mp'.pool[env.txHash tx]? = none :=
  h.exists_removeTransactionFuel horder removeRedeemers (Nat.succ_pos _) (by omega)

/-- Removing a vote. -/
theorem exists_removeTransaction_voteTx : ∃ mp, mp.pool.size = 2 ∧
    ∃ mp', mp.removeTransaction Voting.versionEnv (Voting.voteTx 200 100 3 5) true = .ok mp' ∧
    Within mp' mp := by
  have hnew : (TxPool.empty.addTransaction Voting.versionEnv
      (Voting.voteTx 200 100 3 5) .sSGen 0 0).pool[
      Voting.versionEnv.txHash (plainTx 201 [spend 200 2 1 0 0 0] [])]? = none := by decide +kernel
  have hkeyed := (sound_empty.toKeyed.addTransaction rfl 0 0).addTransaction hnew 0 0
  refine ⟨_, by decide +kernel, Exists.imp (fun mp' h => ⟨h.1, h.2.2.1⟩) (exists_removeTransaction
    (fun hash => hash.toNat - 199) hkeyed (fun hash desc hdesc => ?_) _ true)⟩
  obtain ⟨rfl, rfl⟩ | hdesc := (getElem?_addTransaction hnew).1 hdesc
  · decide +kernel
  · obtain ⟨rfl, rfl⟩ | hdesc := (getElem?_addTransaction rfl).1 hdesc
    · decide +kernel
    · simp [TxPool.empty] at hdesc

/-! ## Two votes of a ticket -/

/-- A policy that asks for nothing. -/
def openPolicy : Policy := ⟨true, true, 100, 0, true⟩

/-- The outputs of a chain with two tickets at height two and a payment at height three. -/
def ticketView : UtxoViewpoint :=
  [(Voting.ticketTx 100 0, 2, 0), (Voting.ticketTx 101 1, 2, 1),
    (plainTx 50 [] [payTo 1 10], 3, 2)].foldl
    (fun view (tx, height, index) => addTxOuts Voting.versionEnv view tx height index)
    ⟨∅, 0, .currentRegular⟩

/-- A node with such a chain, of key blocks only. -/
def ticketNode : Node where
  bestHash := 0
  bestHeight := 9
  bestRealKeyHeight := 9
  nextStakeDifficulty := .ok 10
  fetchUtxoView := fun _ _ => .ok ticketView
  keyHeightByHeight := fun height => .ok ((height : ℤ) - 1)
  checkTransactionStandard := fun _ _ => .ok ⟨⟩
  checkInputsStandard := fun _ _ _ => .ok ⟨⟩
  highPriority := fun _ _ => true
  pennyLimit := false

/-- The first ticket votes on a block. -/
def acceptVote (id nonce : ℕ) : PoolStep :=
  .accept ticketNode (Voting.voteTx id 100 nonce 5) true false true

/-- The first output of this ticket. -/
def ticketOutPoint : OutPoint := ⟨Hash.ofNat 100, 0, TxTreeStake⟩

/-- A pool with two votes. -/
theorem exists_twoVotes :
    ∃ one, TxPool.empty.serve Voting.versionEnv openPolicy (acceptVote 200 3) = .ok one ∧
    one.pool.toList.all (fun p => p.2.type = .sSGen) = true ∧
    ∃ two, one.serve Voting.versionEnv openPolicy (acceptVote 201 4) = .ok two ∧ two.pool.size = 2 ∧
      ∃ left, two.serve Voting.versionEnv openPolicy (.remove (Voting.voteTx 201 100 4 5) false) =
        .ok left ∧
        left.outpoints ticketOutPoint = none ∧
        left.pool[Hash.ofNat 200]?.map TxDesc.tx = some (Voting.voteTx 200 100 3 5) := by
  decide +kernel

/-- Both votes of the ticket may be in the pool. -/
theorem exact_of_reachable_twoVotes :
    ∃ mp, Reachable Voting.versionEnv openPolicy (NoRivals Voting.versionEnv) mp ∧
    mp.pool.size = 2 ∧ Exact Voting.versionEnv mp := by
  obtain ⟨one, hone, hvotes, two, htwo, hsize, -⟩ := exists_twoVotes
  have hfirst : NoRivals Voting.versionEnv .empty (acceptVote 200 3) := by
    refine ⟨trivial, fun _ _ _ _ _ _ _ hash desc hdesc => ?_⟩
    simp [TxPool.empty] at hdesc
  have hsecond : NoRivals Voting.versionEnv one (acceptVote 201 4) := by
    refine ⟨trivial, fun _ _ _ _ _ ha _ hash desc hdesc _ _ _ _ => ?_⟩
    cases ha
    have hvote := all_eq_true.1 hvotes _ (mem_toList_iff_getElem?_eq_some.2 hdesc)
    exact ⟨by decide +kernel, of_decide_eq_true hvote⟩
  have hreach := (Reachable.empty.serve hfirst hone).serve hsecond htwo
  exact ⟨two, hreach, hsize, exact_of_reachable hreach⟩

/-- After one of two votes of a ticket was removed, the other one spends the ticket, and the index
does not have it. -/
theorem exists_not_exact : ∃ mp, Reachable Voting.versionEnv openPolicy (fun _ _ => True) mp ∧
    ¬ Exact Voting.versionEnv mp := by
  obtain ⟨one, hone, -, two, htwo, -, left, hleft, hindex, hpool⟩ := exists_twoVotes
  have hreach : Reachable Voting.versionEnv openPolicy (fun _ _ => True) left :=
    ((Reachable.empty.serve trivial hone).serve trivial htwo).serve trivial hleft
  refine ⟨left, hreach, fun hexact => ?_⟩
  obtain ⟨desc, hdesc, htx⟩ := Option.map_eq_some_iff.1 hpool
  have hspend : ticketOutPoint ∈ spentOutPoints desc.tx := by
    rw [htx]
    decide +kernel
  have hmem := (hexact.mem_iff ticketOutPoint (by decide +kernel)).2 ⟨_, desc, hdesc, hspend⟩
  rw [hindex] at hmem
  exact nomatch hmem

end TxPool

end Hcashd.Mempool
