import Hcashd.Blockchain.BlockRun
import Hcashd.Blockchain.NodeIndex

/-!
# Key links of side chains

A block names the last key block before it, and at most `MaxMicroPerKey` micro blocks follow a key
block. `ProcessBlock` compares the name with the parent of the block, and `connectBestChain` does so
again for a block on top of the main chain. An orphan that is accepted on a side chain is never
compared, and the limit on micro blocks is then counted from whatever block it names.

Where the orphans that wait for a block name the key blocks that their parents give, both properties
hold of every branch of the index: `LinkedNode.cons` adds one block to a branch,
`linkedIndex_of_reachable` follows a whole run.
-/

namespace Hcashd.Blockchain.Process

open Lib Stake Voting List

/-- Micro blocks do not follow each other more often than the limit. The genesis block does not
count. -/
def MicroBounded (env : Env) (node : Branch) : Prop :=
  ∀ run, run <:+: node.dropLast → (∀ b ∈ run, isKey env b = false) →
    run.length ≤ env.params.maxMicroPerKey

/-- A branch with the right names and not too many micro blocks in a row. -/
structure LinkedNode (env : Env) (node : Branch) : Prop where
  named : KeysNamed env (node.map MsgBlock.header)
  micro : MicroBounded env node

/-- All branches of the index are linked. -/
def LinkedIndex (env : Env) (st : NodeState) : Prop := ∀ node ∈ st.nodes, LinkedNode env node

/-- The blocks that a call for a block may add to the index: the block, and the orphans that wait
for it or for another one of these. -/
inductive Awaits (env : Env) (st : NodeState) (block : MsgBlock) : MsgBlock → Prop
  | block : Awaits env st block block
  | orphan {p : MsgBlock} {o : OrphanBlock} (hp : Awaits env st block p) (ho : o ∈ st.orphans)
    (hprev : o.block.header.prevBlock = env.blockHash p.header) : Awaits env st block o.block

/-- The orphans that a call may add to the index name the key blocks that their parents give. -/
def OrphansLinked (env : Env) (st : NodeState) : Request → Prop
  | .process d => blockExists env st d.block.header.prevBlock = true →
    ∀ p, Awaits env st d.block p →
    ∀ o ∈ st.orphans, o.block.header.prevBlock = env.blockHash p.header →
      prevKeyHashExists env o.block.header p.header = .ok ⟨⟩
  | .forceHead _ _ => True

variable {env : Env} {st : NodeState} {block parent : MsgBlock} {prev node below : Branch}
  {d : Delivery} {run : List MsgBlock}

/-! ## One block on top of a branch -/

theorem length_add_length_lastKey_le (hrun : run <+: node)
    (hmicro : ∀ b ∈ run, isKey env b = false) :
    run.length + (lastKey env node).length ≤ node.length := by
  obtain ⟨rest, rfl⟩ := hrun
  have hdrop : lastKey env (run ++ rest) = lastKey env rest := by
    apply dropWhile_append_of_pos
    intro b hb
    rw [hmicro b hb]
    rfl
  rw [hdrop, length_append]
  exact Nat.add_le_add_left (lastKey_suffix rest).length_le _

/-- The limit that `maybeAcceptBlock` checks is one on the micro blocks in a row, if the right key
block is named. -/
theorem Indexed.length_le_of_checkMicroPerKey (h : Indexed env st)
    (hgenesis : env.params.genesisBlock.header.height = 0) (ha : Attaches env st prev block)
    (hnamed : block.header.prevKeyBlock = nearestKeyHash env (prev.map MsgBlock.header))
    (hcheck : checkMicroPerKey env st block = .ok ⟨⟩) (hkey : isKey env block = false)
    (hrun : run <+: block :: prev.dropLast)
    (hmicro : ∀ b ∈ run, isKey env b = false) : run.length ≤ env.params.maxMicroPerKey := by
  have hheight : block.header.height = prev.length := ha.rooted.height_eq hgenesis
  have hprev : prev ≠ [] := (h.rooted _ ha.mem).ne_nil
  have hall : run.length ≤ block.header.height := by
    have hle := hrun.length_le
    have hpos := length_pos_of_ne_nil hprev
    rw [length_cons, length_dropLast] at hle
    omega
  rw [checkMicroPerKey, show isKeyBlock env block.header = false from hkey,
    if_neg Bool.false_ne_true] at hcheck
  split_ifs at hcheck with hzero
  · -- No key block is named, and the limit is one on the height.
    rw [rejectIf_eq_ok, not_lt] at hcheck
    exact hall.trans hcheck
  · rw [nearestKeyHash_eq] at hnamed
    cases hlast : lastKey env prev with
    | nil =>
      rw [hlast] at hnamed
      exact absurd hnamed hzero
    | cons k rest =>
      rw [hlast] at hnamed
      have hk : k :: rest ∈ st.nodes :=
        h.suffix ha.mem (hlast ▸ lastKey_suffix prev) (cons_ne_nil _ _)
      have hkheight : k.header.height = rest.length := (h.rooted _ hk).height_eq hgenesis
      have hfetch : fetchBlockFromHash env st (nodeHash env (k :: rest)) =
          .ok k := by rw [fetchBlockFromHash, h.node_eq hk]; rfl
      rw [hnamed, hfetch, ok_bind, rejectIf_eq_ok, not_lt] at hcheck
      have hlong : run.length + (k :: rest).length ≤ (block :: prev).length := by
        rw [← hlast, ← lastKey_cons_of_micro hkey]
        apply length_add_length_lastKey_le _ hmicro
        exact hrun.trans (cons_prefix_cons.2 ⟨rfl, dropLast_prefix prev⟩)
      rw [length_cons, length_cons] at hlong
      omega

/-- A node on a linked parent is linked if it names the key block. -/
theorem Indexed.linkedNode_cons (h : Indexed env st)
    (hgenesis : env.params.genesisBlock.header.height = 0)
    (ha : Attaches env st (parent :: below) block) (hlinked : LinkedNode env (parent :: below))
    (hkey : prevKeyHashExists env block.header parent.header = .ok ⟨⟩)
    (hcheck : checkMicroPerKey env st block = .ok ⟨⟩) :
    LinkedNode env (block :: parent :: below) := by
  have hnamed :
      block.header.prevKeyBlock = nearestKeyHash env ((parent :: below).map MsgBlock.header) :=
    (prevKeyHashExists_eq_ok hlinked.named).1 hkey
  refine ⟨⟨hnamed, hlinked.named⟩, ?_⟩
  intro run hrun hmicro
  rw [dropLast_cons_of_ne_nil (cons_ne_nil _ _), infix_cons_iff] at hrun
  rcases hrun with hrun | hrun
  · cases hblock : isKey env block with
    | false => exact h.length_le_of_checkMicroPerKey hgenesis ha hnamed hcheck hblock hrun hmicro
    | true =>
      -- A row of micro blocks does not start at a key block.
      obtain rfl | ⟨run, rfl, -⟩ := prefix_cons_iff.1 hrun
      · exact Nat.zero_le _
      · exact absurd (hmicro block mem_cons_self) (by rw [hblock]; decide)
  · exact hlinked.micro run hrun hmicro

/-! ## Whole runs -/

/-- `maybeAcceptBlock` keeps the links. -/
theorem LinkedIndex.maybeAcceptBlock (hlinked : LinkedIndex env st)
    (hgenesis : env.params.genesisBlock.header.height = 0) (h : Indexed env st)
    (hfresh : Fresh env st block)
    (hnode : st.node env block.header.prevBlock = some (parent :: below))
    (hkey : prevKeyHashExists env block.header parent.header = .ok ⟨⟩) :
    LinkedIndex env ((maybeAcceptBlock env block).run st).1 := by
  obtain ⟨hsame, -⟩ | ⟨prev, haccept, hadds, -, -⟩ := h.maybeAcceptBlock_cases hfresh
  · rw [hsame]
    exact hlinked
  · have ha := h.attaches hfresh haccept
    obtain ⟨hfound, hcheck, -⟩ := parent_of_checkAccept haccept
    obtain rfl : parent :: below = prev := Option.some.inj (hnode.symm.trans hfound)
    intro node hmem
    rw [hadds.nodes] at hmem
    rcases hmem with rfl | hmem
    · exact h.linkedNode_cons hgenesis ha (hlinked _ ha.mem) hkey hcheck
    · exact hlinked node hmem

/-- Before each turn of `processOrphans` the index is linked, and the hashes are those of blocks
that the call has added. -/
structure OrphanTurn (env : Env) (st : NodeState) (block : MsgBlock) (s : NodeState)
    (hashes : List Hash) :
    Prop where
  linked : LinkedIndex env s
  orphans : ∀ o ∈ s.orphans, o ∈ st.orphans
  added : ∀ hash ∈ hashes, ∃ p below, Awaits env st block p ∧ p :: below ∈ s.nodes ∧
    env.blockHash p.header = hash

section Turns

variable {s s' : NodeState} {hash : Hash} {hashes : List Hash} {o : OrphanBlock}
  (hlinks : ∀ p, Awaits env st block p → ∀ o ∈ st.orphans,
    o.block.header.prevBlock = env.blockHash p.header →
    prevKeyHashExists env o.block.header p.header = .ok ⟨⟩)

include hlinks in
theorem OrphanTurn.linked_maybeAcceptBlock (ht : OrphanTurn env st block s (hash :: hashes))
    (hgenesis : env.params.genesisBlock.header.height = 0) (h : Indexed env s)
    (hwait : waitingOrphan s hash = some o) :
    LinkedIndex env ((maybeAcceptBlock env o.block).run (removeOrphanBlock env s o)).1 := by
  obtain ⟨ho, hprev⟩ := mem_of_waitingOrphan hwait
  obtain ⟨p, below, hp, hmem, rfl⟩ := ht.added hash mem_cons_self
  have hremoved : LinkedIndex env (removeOrphanBlock env s o) := ht.linked
  have hnode :
      (removeOrphanBlock env s o).node env o.block.header.prevBlock = some (p :: below) := by
    rw [hprev]
    exact h.node_eq hmem
  exact hremoved.maybeAcceptBlock hgenesis (h.removeOrphanBlock o)
    (h.fresh_removeOrphanBlock ho) hnode
    (hlinks p hp o (ht.orphans o ho) hprev)

include hlinks in
/-- One turn of the loop accepts an orphan. -/
theorem OrphanTurn.accept (ht : OrphanTurn env st block s (hash :: hashes))
    (hgenesis : env.params.genesisBlock.header.height = 0) (h : Indexed env s)
    (hwait : waitingOrphan s hash = some o) {isMainChain : Bool}
    (hrun : (maybeAcceptBlock env o.block).run (removeOrphanBlock env s o) =
      (s', .ok isMainChain)) :
    OrphanTurn env st block s' (hash :: hashes ++ [env.blockHash o.block.header]) := by
  obtain ⟨ho, hprev⟩ := mem_of_waitingOrphan hwait
  obtain ⟨prev, -, hadds, -⟩ :=
    (h.removeOrphanBlock o).adds_of_maybeAcceptBlock (h.fresh_removeOrphanBlock ho) hrun
  have hnodes : s'.nodes = insert (o.block :: prev) s.nodes := hadds.nodes
  have hlinked := ht.linked_maybeAcceptBlock hlinks hgenesis h hwait
  rw [hrun] at hlinked
  refine ⟨hlinked, fun o' ho' => ?_, fun hash' hhash' => ?_⟩
  · rw [hadds.orphans] at ho'
    exact ht.orphans o' (mem_removeOrphanBlock.1 ho').1
  · rw [hnodes]
    rcases mem_append.1 hhash' with hhash' | hhash'
    · obtain ⟨p, below, hp, hmem, heq⟩ := ht.added hash' hhash'
      exact ⟨p, below, hp, Set.mem_insert_of_mem _ hmem, heq⟩
    · obtain ⟨p, below, hp, -, heq⟩ := ht.added hash mem_cons_self
      refine ⟨o.block, prev, ?_, Set.mem_insert _ _, (mem_singleton.1 hhash').symm⟩
      exact hp.orphan (ht.orphans o ho) (hprev.trans heq.symm)

end Turns

/-- `ProcessBlock` keeps the links where the orphans are linked. -/
theorem LinkedIndex.processBlock (hlinked : LinkedIndex env st)
    (hgenesis : env.params.genesisBlock.header.height = 0) (h : Indexed env st)
    (hlinks : OrphansLinked env st (.process d)) :
    LinkedIndex env ((processBlock env d).run st).1 := by
  have hsteps := processBlock_steps env st d
  generalize (Process.processBlock env d).run st = r at hsteps ⊢
  cases hsteps with
  | rejected e htried => exact hlinked
  | orphan hnew hnode =>
    intro node hmem
    rw [nodes_addOrphanBlock] at hmem
    exact hlinked node hmem
  | @failed parent below s e hnew hnode hkey haccept =>
    have hstep := hlinked.maybeAcceptBlock hgenesis h (fresh_of_checkNew hnew) hnode hkey
    rw [haccept] at hstep
    exact hstep
  | @accepted parent below s s' isMainChain result hnew hnode hkey haccept horphans =>
    have hfresh := fresh_of_checkNew hnew
    have hstep := hlinked.maybeAcceptBlock hgenesis h hfresh hnode hkey
    rw [haccept] at hstep
    obtain ⟨prev, -, hadds, hindexed⟩ := h.adds_of_maybeAcceptBlock hfresh haccept
    have hlinks' := hlinks (by rw [blockExists, hnode]; rfl)
    have hstart : OrphanTurn env st d.block s [env.blockHash d.block.header] := by
      refine ⟨hstep, fun o ho => hadds.orphans ▸ ho, fun hash hhash => ?_⟩
      rw [mem_singleton.1 hhash]
      exact ⟨d.block, prev, .block, hadds.nodes ▸ Set.mem_insert _ _, rfl⟩
    have hloop :=
      hindexed.processOrphans_rule (2 * st.orphans.length + 2) [env.blockHash d.block.header]
      (I := OrphanTurn env st d.block) (E := LinkedIndex env)
      (fun s hash hashes ht _ =>
        ⟨ht.linked, ht.orphans, fun hash' hhash' => ht.added hash' (mem_cons_of_mem _ hhash')⟩)
      (fun s hash hashes o s' _ hs ht hwait hrun => ht.accept hlinks' hgenesis hs hwait hrun)
      (fun s hash hashes o s' e hs ht hwait hrun => by
        have hlinked := ht.linked_maybeAcceptBlock hlinks' hgenesis hs hwait
        rwa [hrun] at hlinked)
      hstart (by rw [hadds.orphans]; exact Nat.le_succ _)
    rw [horphans] at hloop
    rcases hloop.2 with ⟨-, hend⟩ | ⟨-, hend⟩
    · exact hend.linked
    · exact hend

/-- In a run whose calls find linked orphans, every branch of the index is linked. -/
theorem linkedIndex_of_reachable (hgenesis : env.params.genesisBlock.header.height = 0)
    (hprevKey : env.params.genesisBlock.header.prevKeyBlock = 0)
    (hst : Reachable env (OrphansLinked env) st) : LinkedIndex env st := by
  induction hst with
  | new =>
    intro node hnode
    rw [mem_nodes_newNode hnode]
    refine ⟨⟨hprevKey, trivial⟩, fun run hrun _ => ?_⟩
    rw [infix_nil.1 hrun]
    exact Nat.zero_le _
  | @call st request hst hlinks ih =>
    have h := indexed_of_reachable hst
    cases request with
    | process d =>
      rw [fst_run_serve_process]
      exact ih.processBlock hgenesis h hlinks
    | forceHead formerBest newBest =>
      intro node hnode
      have hsame : ((serve env (.forceHead formerBest newBest)).run st).1.nodes = st.nodes :=
        (h.keepsNodes_forceHeadReorganization formerBest newBest).2.nodes
      rw [hsame] at hnode
      exact ih node hnode

/-- A block that is waited for is the new one or an orphan. -/
theorem Awaits.eq_or_orphan {p : MsgBlock} (h : Awaits env st block p) :
    p ∈ block :: st.orphans.map OrphanBlock.block := by
  cases h with
  | block => exact mem_cons_self
  | orphan hp ho hprev => exact mem_cons_of_mem _ (mem_map_of_mem ho)

/-- A condition on the orphans alone. -/
theorem orphansLinked_of_forall
    (h : ∀ o ∈ st.orphans, ∀ p ∈ d.block :: st.orphans.map OrphanBlock.block,
      o.block.header.prevBlock = env.blockHash p.header →
      prevKeyHashExists env o.block.header p.header = .ok ⟨⟩) : OrphansLinked env st (.process d) :=
  fun _ p hp o ho hprev => h o ho p hp.eq_or_orphan hprev

/-! ## An orphan on a side chain -/

/-- A network with two micro blocks for a key block. -/
def linkEnv : Env := sampleEnv { sampleParams with maxMicroPerKey := 2 }

/-- A micro block without rewards, at a height, on top of a block and with the name of a key
block. -/
def linkBlock (height nonce prev prevKey : ℕ) : MsgBlock :=
  blockOf linkEnv (sampleHeader height 1 nonce prev prevKey)
    [coinbaseTx (nonce + 1000) 0 [heightOut height, payTo 2 0]] []

/-- The delivery of a block. -/
def deliver (block : MsgBlock) : Request := .process ⟨block, 10, 10⟩

/-- A key block, a micro block, then three micro blocks of a side chain in the wrong order. The last
one of these names the first one as its key block. -/
def misnamedRequests : List Request :=
  [deliver sampleBlockOne, deliver (linkBlock 2 102 1 1), deliver (linkBlock 4 105 104 103),
    deliver (linkBlock 3 104 103 1), deliver (linkBlock 2 103 1 1)]

/-- The branch of the side chain. -/
def misnamedBranch : Branch :=
  [linkBlock 4 105 104 103, linkBlock 3 104 103 1, linkBlock 2 103 1 1, sampleBlockOne,
    linkEnv.params.genesisBlock]

theorem misnamedBranch_mem_nodes :
    misnamedBranch ∈ (serveAll linkEnv (newNode linkEnv) misnamedRequests).nodes := by
  have hside : misnamedBranch ∈ (serveAll linkEnv (newNode linkEnv) misnamedRequests).sides := by
    decide +kernel
  exact .inr hside

/-- A side chain whose last block does not name the last key block before it, and that has three
micro blocks in a row. -/
theorem exists_node_not_linked :
    linkEnv.params.genesisBlock.header.height = 0 ∧
    linkEnv.params.genesisBlock.header.prevKeyBlock = 0 ∧
    ∃ st, Reachable linkEnv (fun _ _ => True) st ∧ ∃ node ∈ st.nodes,
      ¬ KeysNamed linkEnv (node.map MsgBlock.header) ∧ ¬ MicroBounded linkEnv node := by
  refine ⟨rfl, by decide +kernel, _, Reachable.new.serveAll (fun _ _ => trivial) misnamedRequests,
    misnamedBranch, misnamedBranch_mem_nodes, fun hnamed => ?_, fun hmicro => ?_⟩
  · exact absurd hnamed.1 (by decide +kernel)
  · have hlong := hmicro (misnamedBranch.take 3) ⟨[], [sampleBlockOne], rfl⟩ (by decide +kernel)
    exact absurd hlong (by decide +kernel)

/-- A key block, and two micro blocks in the wrong order. -/
def linkedRequests : List Request :=
  [deliver sampleBlockOne, deliver (linkBlock 3 104 102 1), deliver (linkBlock 2 102 1 1)]

/-- An orphan with the right name, which is accepted after its parent. -/
theorem linkedIndex_of_reachable_linkedRequests :
    LinkedIndex linkEnv (serveAll linkEnv (newNode linkEnv) linkedRequests) ∧
      (serveAll linkEnv (newNode linkEnv) linkedRequests).main =
        [linkBlock 3 104 102 1, linkBlock 2 102 1 1, sampleBlockOne,
          linkEnv.params.genesisBlock] := by
  have hone : Reachable linkEnv (OrphansLinked linkEnv)
      (serveAll linkEnv (newNode linkEnv) (linkedRequests.take 1)) :=
    .call .new (orphansLinked_of_forall (by decide +kernel))
  have horphan : Reachable linkEnv (OrphansLinked linkEnv)
      (serveAll linkEnv (newNode linkEnv) (linkedRequests.take 2)) :=
    .call hone (orphansLinked_of_forall (by decide +kernel))
  have hparent :
      Reachable linkEnv (OrphansLinked linkEnv)
        (serveAll linkEnv (newNode linkEnv) linkedRequests) :=
    .call horphan (orphansLinked_of_forall (by decide +kernel))
  exact ⟨linkedIndex_of_reachable rfl (by decide +kernel) hparent, by decide +kernel⟩

end Hcashd.Blockchain.Process
