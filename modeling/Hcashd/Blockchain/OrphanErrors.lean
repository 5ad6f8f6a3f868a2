import Hcashd.Blockchain.OrphanLinks

/-!
# Whose error `ProcessBlock` returns

An error of `ProcessBlock` should mean that the block was not added to the index, and no orphan
should be left in the pool once its parent is known. Both fail where a later step of the same call
fails. A block of a side chain is in the index before the reorganization is tried, and
`processOrphans` stops at the first orphan that is not accepted and returns its error as that of the
block.

`judge` says by the checks alone what becomes of a block on top of a known one, and `outcome` what
becomes of a block with the orphans that wait for it. A call is right about its block where the
block is rejected or all of these blocks are valid where they come to stand, and it is wrong where
one of the orphans is not (`processBlock_blames`). What a reorganization does is left open.
-/

namespace Hcashd.Blockchain.Process

open Lib Stake Voting Call

/-- No orphan has a parent that is known. -/
def Settled (env : Env) (st : NodeState) : Prop :=
  ∀ o ∈ st.orphans, blockExists env st o.block.header.prevBlock = false

instance (env : Env) (st : NodeState) : Decidable (Settled env st) :=
  inferInstanceAs
    (Decidable (∀ o ∈ st.orphans, blockExists env st o.block.header.prevBlock = false))

/-- An error means that the block was not added to the index, and no orphan is left that has a
parent. -/
def Blames (env : Env) (st : NodeState) (d : Delivery) : Prop :=
  (((processBlock env d).run st).2.isOk = false →
    blockExists env st (env.blockHash d.block.header) = false →
    blockExists env ((processBlock env d).run st).1 (env.blockHash d.block.header) = false) ∧
  Settled env ((processBlock env d).run st).1

instance (env : Env) (st : NodeState) (d : Delivery) : Decidable (Blames env st d) :=
  inferInstanceAs (Decidable (_ ∧ _))

/-- The price of the next tickets can be told, or is not asked for. -/
def Priced (env : Env) (block : MsgBlock) (chain : ChainState) : Prop :=
  env.params.stakeEnabledHeight ≤ block.header.keyHeight →
    (env.requiredStakeDifficulty (Chain.headers chain.chain)).isOk = true

instance (env : Env) (block : MsgBlock) (chain : ChainState) : Decidable (Priced env block chain) :=
  inferInstanceAs (Decidable (_ → _))

/-- What becomes of a block on top of the best one: an error where a check fails, or else the state
with the block. There is no answer where the price of the next tickets cannot be told: the block is
connected before. -/
def judgeExtending (env : Env) (st : NodeState) (block : MsgBlock) :
    Except Err (Option NodeState) := do
  prevKeyHashExists env block.header st.chain.tip.block.header
  let c ← checkConnectBlock env st.chain.utxos st.chain.tip st.chain.below block
  let chain ← Blockchain.connectBlock env st.chain block c
  pure (if Priced env block chain then some (connected env st block c chain) else none)

/-- What becomes of a block on top of a known one. There is no answer where it brings about a
reorganization. -/
def judge (env : Env) (st : NodeState) (block : MsgBlock) : Except Err (Option NodeState) := do
  let prev ← checkAccept env st block
  if block.header.prevBlock = nodeHash env st.main then judgeExtending env st block
  else if workSum env (block :: prev) ≤ workSum env st.main then
    pure (some { st with sides := st.sides ++ [block :: prev] })
  else pure none

/-- The outcomes of a call for a block whose parent is known. -/
inductive Outcome
  -- The block is not valid.
  | rejected
  -- The block and all orphans that wait for it are valid where they come to stand.
  | accepted
  -- The block is valid, and an orphan that waits for it is not.
  | spoiled
  -- There is no answer for one of the blocks.
  | undecided
  deriving DecidableEq

/-- The outcome for the orphans that wait for some hashes and for those that wait for them, each
judged in its turn on what the earlier ones have left. -/
def judgeOrphans (env : Env) : ℕ → NodeState → List Hash → Outcome
  | _, _, [] => .accepted
  | 0, _, _ :: _ => .undecided
  | fuel + 1, st, hash :: hashes => match waitingOrphan st hash with
    | none => judgeOrphans env fuel st hashes
    | some o => match judge env (removeOrphanBlock env st o) o.block with
      | .error _ => .spoiled
      | .ok none => .undecided
      | .ok (some s) => judgeOrphans env fuel s (hash :: hashes ++ [env.blockHash o.block.header])

/-- The outcome for a block with the orphans that wait for it. -/
def outcome (env : Env) (st : NodeState) (block : MsgBlock) : Outcome :=
  match judge env st block with
  | .error _ => .rejected
  | .ok none => .undecided
  | .ok (some s) => judgeOrphans env (2 * st.orphans.length + 2) s [env.blockHash block.header]

/-- A block that `ProcessBlock` tries to accept is rejected, or accepted with all orphans that wait
for it. -/
def Clean (env : Env) (st : NodeState) : Request → Prop
  | .process d =>
    Tried env st d → outcome env st d.block = .rejected ∨ outcome env st d.block = .accepted
  | .forceHead _ _ => True

variable {env : Env} {st s s' : NodeState} {block : MsgBlock} {prev node : Branch} {hash : Hash}
  {hashes : List Hash} {o : OrphanBlock}

/-- A fresh block does not exist yet. -/
theorem Fresh.not_exists (hfresh : Fresh env st block) :
    blockExists env st (env.blockHash block.header) = false := by
  rw [← Bool.not_eq_true, blockExists_iff]
  rintro ⟨node, hnode, heq⟩
  exact hfresh.node node hnode heq

/-! ## What the checks say -/

/-- A call goes as it was judged: it fails and changes nothing, or leaves the state with the
block. -/
def GoesAs {α : Type} (st : NodeState) (r : NodeState × Except Err α) :
    Except Err (Option NodeState) → Prop
  | .error e => r = (st, .error e)
  | .ok none => True
  | .ok (some s) => ∃ a, r = (s, .ok a)

/-- A verdict holds for the call that wraps it. -/
theorem GoesAs.bind_pure {α β : Type} {x : Call Err NodeState α} {f : α → β}
    {verdict : Except Err (Option NodeState)}
    (h : GoesAs st (x.run st) verdict) :
    GoesAs st ((x >>= fun a => pure (f a)).run st) verdict := by
  rcases verdict with e | _ | s
  · exact run_bind_of_error h
  · trivial
  · obtain ⟨a, ha⟩ := h
    exact ⟨f a, run_bind_of_ok ha⟩

theorem run_connectBlock_of_priced {c : Connecting} {chain : ChainState}
    (hprev : block.header.prevBlock = nodeHash env st.main)
    (hchain : Blockchain.connectBlock env st.chain block c = .ok chain)
    (hpriced : Priced env block chain) :
    (connectBlock env block c).run st = (connected env st block c chain, .ok (commit c.view)) := by
  rw [connectBlock, run_get_bind, rejectIf, if_neg (not_not.2 hprev), run_lift_ok_bind, hchain,
    run_lift_ok_bind, run_set_bind, run_release_bind]
  split_ifs with henabled
  · rw [eq_ok_valueOf (hpriced henabled)]
    rfl
  · rfl

/-- `extendMain` goes as its verdict says. -/
theorem goesAs_extendMain (hextend : block.header.prevBlock = nodeHash env st.main) :
    GoesAs st ((extendMain env block).run st) (judgeExtending env st block) := by
  rw [judgeExtending]
  cases hkey : prevKeyHashExists env block.header st.chain.tip.block.header with
  | error e =>
    rw [extendMain, run_get_bind, hkey]
    rfl
  | ok _ =>
    cases hc : checkConnectBlock env st.chain.utxos st.chain.tip st.chain.below block with
    | error e =>
      rw [extendMain, run_get_bind, hkey, run_lift_ok_bind, hc]
      rfl
    | ok c =>
      rw [run_extendMain hkey hc, ok_bind, ok_bind]
      refine GoesAs.bind_pure ?_
      cases hchain : Blockchain.connectBlock env st.chain block c with
      | error e =>
        rw [connectBlock, run_get_bind, rejectIf, if_neg (not_not.2 hextend),
          run_lift_ok_bind, hchain]
        rfl
      | ok chain =>
        rw [ok_bind]
        by_cases hpriced : Priced env block chain
        · rw [if_pos hpriced]
          exact ⟨_, run_connectBlock_of_priced hextend hchain hpriced⟩
        · rw [if_neg hpriced]
          trivial

/-- `maybeAcceptBlock` does what the checks say. -/
theorem goesAs_maybeAcceptBlock (env : Env) (st : NodeState) (block : MsgBlock) :
    GoesAs st ((maybeAcceptBlock env block).run st) (judge env st block) := by
  rw [judge]
  cases haccept : checkAccept env st block with
  | error e =>
    rw [maybeAcceptBlock, run_get_bind, haccept]
    rfl
  | ok prev =>
    rw [run_maybeAcceptBlock haccept, connectBestChain, run_get_bind, ok_bind]
    split_ifs with hextend hwork
    · exact (goesAs_extendMain hextend).bind_pure
    · exact ⟨false, rfl⟩
    · trivial

/-- The three ways in which a block that is tried can go. -/
theorem outcome_cases {result : Except Err Bool}
    (hrun : (maybeAcceptBlock env block).run st = (s, result)) :
    outcome env st block = .undecided ∨
    (outcome env st block = .rejected ∧ s = st ∧ result.isOk = false) ∨
    (outcome env st block =
        judgeOrphans env (2 * st.orphans.length + 2) s [env.blockHash block.header] ∧
      result.isOk = true) := by
  have hgoes := goesAs_maybeAcceptBlock env st block
  rw [hrun] at hgoes
  unfold outcome
  generalize judge env st block = verdict at hgoes ⊢
  rcases verdict with e | _ | s1
  · obtain ⟨rfl, rfl⟩ := Prod.mk.inj hgoes
    exact .inr (.inl ⟨rfl, rfl, rfl⟩)
  · exact .inl rfl
  · obtain ⟨a, ha⟩ := hgoes
    obtain ⟨rfl, rfl⟩ := Prod.mk.inj ha
    exact .inr (.inr ⟨rfl, rfl⟩)

/-- Nothing is left to process. -/
theorem run_processOrphans_nil (env : Env) (fuel : ℕ) (st : NodeState) :
    ((processOrphans env fuel []).run st).2 = .ok ⟨⟩ := by
  cases fuel <;> rfl

/-- `processOrphans` does what the checks say of the orphans. -/
theorem processOrphans_of_judgeOrphans (env : Env) (fuel : ℕ) (st : NodeState)
    (hashes : List Hash) :
    judgeOrphans env fuel st hashes ≠ .rejected ∧
    (judgeOrphans env fuel st hashes = .accepted →
      ((processOrphans env fuel hashes).run st).2 = .ok ⟨⟩) ∧
    (judgeOrphans env fuel st hashes = .spoiled →
      ∃ e, ((processOrphans env fuel hashes).run st).2 = .error e) := by
  induction fuel generalizing st hashes with
  | zero => cases hashes <;> simp [run_processOrphans_nil, judgeOrphans]
  | succ fuel ih =>
    cases hashes with
    | nil => simp [run_processOrphans_nil, judgeOrphans]
    | cons hash hashes =>
      rw [processOrphans, run_get_bind, judgeOrphans]
      cases hwait : waitingOrphan st hash with
      | none => exact ih st hashes
      | some o =>
        rw [run_set_bind]
        dsimp only
        have hgoes := goesAs_maybeAcceptBlock env (removeOrphanBlock env st o) o.block
        cases hjudge : judge env (removeOrphanBlock env st o) o.block with
        | error e =>
          rw [hjudge] at hgoes
          simp [run_bind_of_error hgoes]
        | ok verdict =>
          rw [hjudge] at hgoes
          cases verdict with
          | none => simp
          | some s =>
            obtain ⟨isMainChain, hrun⟩ := hgoes
            rw [run_bind_of_ok hrun]
            exact ih s _

/-! ## The orphans of a call -/

/-- The orphans with a known parent wait for one of the hashes. -/
def Pending (env : Env) (st : NodeState) (hashes : List Hash) : Prop :=
  ∀ o ∈ st.orphans, ∀ node ∈ st.nodes, nodeHash env node = o.block.header.prevBlock →
    o.block.header.prevBlock ∈ hashes

theorem settled_iff_pending : Settled env st ↔ Pending env st [] := by
  constructor
  · intro h o ho node hnode heq
    have hexists := blockExists_iff.2 ⟨node, hnode, heq⟩
    rw [h o ho] at hexists
    exact absurd hexists Bool.false_ne_true
  · intro h o ho
    rw [← Bool.not_eq_true, blockExists_iff]
    rintro ⟨node, hnode, heq⟩
    exact absurd (h o ho node hnode heq) List.not_mem_nil

/-- A hash that no orphan waits for is done. -/
theorem Pending.skip (h : Pending env st (hash :: hashes)) (hwait : waitingOrphan st hash = none) :
    Pending env st hashes := by
  intro o ho node hnode heq
  rcases List.mem_cons.1 (h o ho node hnode heq) with hprev | hmem
  · exact absurd (decide_eq_true hprev) (List.find?_eq_none.1 hwait o ho)
  · exact hmem

/-- A new node is looked at next. -/
theorem Pending.adds (h : Pending env st hashes) (hadds : AddsNode st (block :: prev) s) :
    Pending env s (hashes ++ [env.blockHash block.header]) := by
  intro o ho node hnode heq
  rw [hadds.orphans] at ho
  rw [hadds.nodes] at hnode
  rcases hnode with rfl | hnode
  · exact List.mem_append_right _ (List.mem_singleton.2 heq.symm)
  · exact List.mem_append_left _ (h o ho node hnode heq)

theorem Pending.removeOrphanBlock (h : Pending env st hashes) (o : OrphanBlock) :
    Pending env (removeOrphanBlock env st o) hashes :=
  fun o' ho' => h o' (mem_removeOrphanBlock.1 ho').1

/-- What a call leaves when it has come to the orphans: without an error no orphan has a parent, and
the block is in the index in any case. -/
theorem Indexed.settled_processOrphans (h : Indexed env s) (hnode : node ∈ s.nodes) {fuel : ℕ}
    (hpending : Pending env s hashes) (hfuel : 2 * s.orphans.length + hashes.length ≤ fuel) :
    node ∈ ((processOrphans env fuel hashes).run s).1.nodes ∧
    (((processOrphans env fuel hashes).run s).2 = .ok ⟨⟩ →
      Settled env ((processOrphans env fuel hashes).run s).1) := by
  have hloop := h.processOrphans_rule fuel hashes
    (I := fun s hashes => node ∈ s.nodes ∧ Pending env s hashes) (E := fun s => node ∈ s.nodes)
    (fun s hash hashes hI hwait => ⟨hI.1, hI.2.skip hwait⟩)
      (fun s hash hashes o s' _ hs hI hwait hrun => by
      obtain ⟨prev, -, hadds, -⟩ := (hs.removeOrphanBlock o).adds_of_maybeAcceptBlock
        (hs.fresh_removeOrphanBlock (mem_of_waitingOrphan hwait).1) hrun
      exact ⟨hadds.nodes ▸ Set.mem_insert_of_mem _ hI.1, (hI.2.removeOrphanBlock o).adds hadds⟩)
    (fun s hash hashes o s' e hs hI hwait hrun => by
      have hcases := (hs.removeOrphanBlock o).maybeAcceptBlock_cases
        (hs.fresh_removeOrphanBlock (mem_of_waitingOrphan hwait).1)
      rw [hrun] at hcases
      rcases hcases with ⟨rfl, -⟩ | ⟨prev, -, hadds, -, -⟩
      · exact hI.1
      · exact hadds.nodes ▸ Set.mem_insert_of_mem _ hI.1)
    ⟨hnode, hpending⟩ hfuel
  rcases hloop.2 with ⟨-, hend, hsettled⟩ | ⟨⟨e, he⟩, hend⟩
  · exact ⟨hend, fun _ => settled_iff_pending.2 hsettled⟩
  · exact ⟨hend, fun hok => nomatch he.symm.trans hok⟩

/-! ## Whole calls -/

/-- Where the outcome is open, a call is not clean and no orphan is known to be invalid. -/
theorem of_undecided {d : Delivery} {P : Prop} (htried : Tried env st d)
    (hout : outcome env st d.block = .undecided) :
    (Clean env st (.process d) → P) ∧
    (Tried env st d → outcome env st d.block = .spoiled → ¬ P) := by
  refine ⟨fun hclean => ?_, fun _ hspoiled => ?_⟩
  · rcases hclean htried with hrejected | haccepted
    · cases hout.symm.trans hrejected
    · cases hout.symm.trans haccepted
  · cases hout.symm.trans hspoiled

/-- Between calls that were right about their blocks, a call is right about its block if it is
clean, and wrong if an orphan that waits for the block is not valid. -/
theorem Indexed.blames (h : Indexed env st) (hsettled : Settled env st) (d : Delivery) :
    (Clean env st (.process d) → Blames env st d) ∧
    (Tried env st d → outcome env st d.block = .spoiled → ¬ Blames env st d) := by
  have hsteps := processBlock_steps env st d
  unfold Blames
  generalize (Process.processBlock env d).run st = r at hsteps ⊢
  cases hsteps with
  | rejected e htried =>
    exact ⟨fun _ => ⟨fun _ hnot => hnot, hsettled⟩, fun htried' => absurd htried' htried⟩
  | orphan hnew hnode =>
    refine ⟨fun _ => ⟨nofun, ?_⟩, ?_⟩
    · rw [settled_iff_pending] at hsettled ⊢
      intro o ho node hmem heq
      rw [nodes_addOrphanBlock] at hmem
      rcases mem_addOrphanBlock ho with ho | rfl
      · exact hsettled o ho node hmem heq
      · exact absurd heq (node_eq_none_iff.1 hnode node hmem)
    · rintro ⟨-, parent, below, hfound, -⟩
      exact nomatch hnode.symm.trans hfound
  | @failed parent below s e hnew hnode hkey haccept =>
    rcases outcome_cases haccept with hout | ⟨hout, rfl, -⟩ | ⟨-, hok⟩
    · exact of_undecided ⟨hnew, parent, below, hnode, hkey⟩ hout
    · -- The block is rejected, and nothing has changed.
      refine ⟨fun _ => ⟨fun _ hnot => hnot, hsettled⟩, fun _ hspoiled => ?_⟩
      cases hout.symm.trans hspoiled
    · cases hok
  | @accepted parent below s s' isMainChain result hnew hnode hkey haccept horphans =>
    have hfresh := fresh_of_checkNew hnew
    have htried : Tried env st d := ⟨hnew, parent, below, hnode, hkey⟩
    obtain ⟨prev, -, hadds, hindexed⟩ := h.adds_of_maybeAcceptBlock hfresh haccept
    have hfuel : 2 * s.orphans.length + [env.blockHash d.block.header].length ≤
        2 * st.orphans.length + 2 := by
      rw [hadds.orphans]
      exact Nat.le_succ _
    have hpending : Pending env s [env.blockHash d.block.header] :=
      (settled_iff_pending.1 hsettled).adds hadds
    have hend := hindexed.settled_processOrphans (hadds.nodes ▸ Set.mem_insert _ _) hpending hfuel
    have hjudged :=
      processOrphans_of_judgeOrphans env (2 * st.orphans.length + 2) s
        [env.blockHash d.block.header]
    rw [horphans] at hend hjudged
    rcases outcome_cases haccept with hout | ⟨-, -, herror⟩ | ⟨hout, -⟩
    · exact of_undecided htried hout
    · cases herror
    · rw [← hout] at hjudged
      obtain ⟨hnot, hall, hspoils⟩ := hjudged
      constructor
      · intro hclean
        have hresult : result = .ok ⟨⟩ := hall ((hclean htried).resolve_left hnot)
        rw [hresult] at hend ⊢
        exact ⟨nofun, hend.2 rfl⟩
      · rintro - hspoiled ⟨hblames, -⟩
        obtain ⟨e, rfl⟩ := hspoils hspoiled
        -- The error is that of an orphan, and the block is in the index.
        have hexists : blockExists env s' (env.blockHash d.block.header) = true :=
          blockExists_iff.2 ⟨_, hend.1, rfl⟩
        exact absurd ((hblames rfl hfresh.not_exists).symm.trans hexists) Bool.false_ne_true

/-- Between requests no orphan has its parent in the index. -/
theorem settled_of_reachable (hst : Reachable env (Clean env) st) : Settled env st := by
  induction hst with
  | new => exact nofun
  | @call st request hst hclean ih =>
    have h := indexed_of_reachable hst
    cases request with
    | process d =>
      rw [fst_run_serve_process]
      exact ((h.blames ih d).1 hclean).2
    | forceHead formerBest newBest =>
      have hsame := (h.keepsNodes_forceHeadReorganization formerBest newBest).2
      rw [settled_iff_pending] at ih ⊢
      intro o ho node hnode
      exact ih o (hsame.orphans ▸ ho) node (hsame.nodes ▸ hnode)

/-- A micro block whose coinbase names another height. -/
def wrongHeightBlock : MsgBlock :=
  blockOf linkEnv (sampleHeader 3 1 104 102 1) [coinbaseTx 1104 0 [heightOut 9, payTo 2 0]] []

/-- A key block, and two orphans that wait for the same micro block. The first one is not valid. -/
def strandedRequests : List Request :=
  [deliver sampleBlockOne, deliver wrongHeightBlock, deliver (linkBlock 3 105 102 1)]

end Hcashd.Blockchain.Process
