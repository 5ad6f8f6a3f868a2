import Hcashd.Blockchain.Process

/-!
# What processing a block does to the index

The nodes of the index are the nodes of the main chain and those of the side chains. A
reorganization only moves nodes from the one to the other, whether it succeeds or stops in the
middle (`run_reorganizeChain`). `maybeAcceptBlock` adds one node or none, and does not fail without
a trace only in a reorganization (`maybeAcceptBlock_cases`). These are the results that the
properties of whole runs are proved from; later proofs do not look into the calls again.
-/

namespace Hcashd.Blockchain.Process

open Lib Stake Voting List Call

/-- The nodes of the index. -/
def NodeState.nodes (st : NodeState) : Set Branch :=
  {node | node ∈ branchTree st.main ∨ node ∈ st.sides}

/-- A branch down to the genesis block, whose blocks are linked by hashes and heights. -/
def Rooted (env : Env) : Branch → Prop
  | [] => False
  | [b] => b = env.params.genesisBlock
  | b :: p :: below =>
    b.header.prevBlock = env.blockHash p.header ∧ b.header.height = p.header.height + 1 ∧
      Rooted env (p :: below)

/-- The index: all nodes lead to the genesis block over nodes of the index, no two of them have the
same hash, and orphans are not among them. -/
structure Indexed (env : Env) (st : NodeState) : Prop where
  rooted : ∀ node ∈ st.nodes, Rooted env node
  parent : ∀ b below, b :: below ∈ st.nodes → below ≠ [] → below ∈ st.nodes
  unique : ∀ node ∈ st.nodes, ∀ node' ∈ st.nodes, nodeHash env node = nodeHash env node' →
    node = node'
  orphan : ∀ o ∈ st.orphans, ∀ node ∈ st.nodes, nodeHash env node ≠ env.blockHash o.block.header

variable {env : Env} {st st' : NodeState} {block : MsgBlock} {prev node : Branch}

/-- A rooted branch is not empty. -/
theorem Rooted.ne_nil (h : Rooted env node) : node ≠ [] := by
  rintro rfl
  exact h

variable {b : MsgBlock} {below : Branch}

/-- A block names its parent. -/
theorem Rooted.prevBlock_eq (h : Rooted env (b :: below))
    (hne : below ≠ []) : b.header.prevBlock = nodeHash env below := by
  obtain ⟨p, rest, rfl⟩ := exists_cons_of_ne_nil hne
  exact h.1

/-- The height of a header is its distance from the genesis block. -/
theorem Rooted.height_eq (hgenesis : env.params.genesisBlock.header.height = 0)
    (h : Rooted env (b :: below)) : b.header.height = below.length := by
  induction below generalizing b with
  | nil => rw [show b = env.params.genesisBlock from h, hgenesis]; rfl
  | cons p rest ih => rw [h.2.1, ih h.2.2, length_cons]

theorem Rooted.genesis_mem (h : Rooted env node) : [env.params.genesisBlock] <:+ node := by
  induction node with
  | nil => exact h.elim
  | cons b below ih =>
    cases below with
    | nil => rw [show b = env.params.genesisBlock from h]
    | cons p rest => exact (ih h.2.2).trans (suffix_cons _ _)

/-- The main chain is a node. -/
theorem main_mem_nodes (st : NodeState) : st.main ∈ st.nodes :=
  .inl ⟨suffix_refl _, cons_ne_nil _ _⟩

/-- Ancestors of a node are nodes. -/
theorem Indexed.suffix (h : Indexed env st) (hnode : node ∈ st.nodes) {s : Branch} (hs : s <:+ node)
    (hne : s ≠ []) : s ∈ st.nodes := by
  obtain ⟨front, rfl⟩ := hs
  induction front with
  | nil => exact hnode
  | cons b front ih => exact ih (h.parent b _ hnode (append_ne_nil_of_right_ne_nil _ hne))

variable {hash : Hash} {c : Connecting} {chain : ChainState} {rest : Branch} {o : OrphanBlock}

/-- What the index finds is a node with the hash. -/
theorem mem_nodes_of_node (h : st.node env hash = some node) :
    node ∈ st.nodes ∧ nodeHash env node = hash := by
  rw [NodeState.node, Option.or_eq_some_iff] at h
  obtain h | ⟨-, h⟩ := h
  · obtain ⟨hmem, hhash⟩ := mem_branchTree_of_branchIndex h
    exact ⟨.inl hmem, hhash⟩
  · exact ⟨.inr (mem_of_find?_eq_some h), by simpa using find?_some h⟩

theorem node_eq_none_iff :
    st.node env hash = none ↔ ∀ node ∈ st.nodes, nodeHash env node ≠ hash := by
  constructor
  · intro hnone node hnode heq
    rw [NodeState.node, Option.or_eq_none_iff, branchIndex, find?_eq_none, find?_eq_none] at hnone
    obtain ⟨hs, hne⟩ | hside := hnode
    · exact hnone.1 node ((mem_tails _ _).2 hs) (by simpa using ⟨hne, heq⟩)
    · exact hnone.2 node hside (by simpa using heq)
  · intro hnot
    cases hfound : st.node env hash with
    | none => rfl
    | some node =>
      obtain ⟨hmem, hhash⟩ := mem_nodes_of_node hfound
      exact absurd hhash (hnot node hmem)

/-- A block exists iff a node has its hash. -/
theorem blockExists_iff :
    blockExists env st hash = true ↔ ∃ node ∈ st.nodes, nodeHash env node = hash := by
  rw [← not_iff_not, Bool.not_eq_true, blockExists, Option.isSome_eq_false_iff,
    Option.isNone_iff_eq_none, node_eq_none_iff]
  push Not
  rfl

/-- The index finds each node by its hash. -/
theorem Indexed.node_eq (h : Indexed env st) (hnode : node ∈ st.nodes) :
    st.node env (nodeHash env node) = some node := by
  cases hfound : st.node env (nodeHash env node) with
  | none => exact absurd rfl (node_eq_none_iff.1 hfound node hnode)
  | some node' =>
    obtain ⟨hmem, hhash⟩ := mem_nodes_of_node hfound
    rw [h.unique node' hmem node hnode hhash]

theorem mem_branchTree_cons :
    node ∈ branchTree (b :: below) ↔ node = b :: below ∨ node ∈ branchTree below := by
  rw [branchTree, Set.mem_ofPred_eq, suffix_cons_iff, or_and_right]
  exact or_congr_left (and_iff_left_of_imp fun h => h ▸ cons_ne_nil _ _)

/-- A new node has the genesis block only. -/
theorem mem_nodes_newNode (h : node ∈ (newNode env).nodes) : node = [env.params.genesisBlock] := by
  obtain hmain | hside := h
  · exact (mem_branchTree_cons.1 hmain).resolve_right fun ⟨hs, hne⟩ => hne (suffix_nil.1 hs)
  · exact absurd hside not_mem_nil

/-- The index of a new node. -/
theorem indexed_newNode (env : Env) : Indexed env (newNode env) := by
  refine ⟨fun node hnode => ?_, fun b below hnode hne => ?_, fun node hnode node' hnode' _ =>
    ?_, nofun⟩
  · rw [mem_nodes_newNode hnode]
    rfl
  · exact absurd (cons.inj (mem_nodes_newNode hnode)).2 hne
  · rw [mem_nodes_newNode hnode, mem_nodes_newNode hnode']

/-! ## Connecting and disconnecting -/

/-- The state after a block was connected to the tip. -/
def connected (env : Env) (st : NodeState) (block : MsgBlock) (c : Connecting)
    (chain : ChainState) : NodeState :=
  { st with
    chain := chain
    spendJournal :=
      st.spendJournal.insert (env.blockHash block.header) (serializeSpendJournalEntry c.stxos)
    sides := st.sides.filter fun node => nodeHash env node ≠ env.blockHash block.header }

/-- The state after the last block was disconnected. -/
def disconnected (env : Env) (st : NodeState) (block : MsgBlock) (view : UtxoViewpoint)
    (tip : ChainBlock) (below : Chain) : NodeState :=
  { st with
    chain := ⟨tip, below, dbPutUtxoView st.chain.utxos view⟩
    spendJournal := st.spendJournal.erase (env.blockHash block.header)
    sides := st.main :: st.sides }

/-- `connectBlock` puts the block on the main chain, even if it fails after that. -/
theorem fst_run_connectBlock (hprev : block.header.prevBlock = nodeHash env st.main)
    (hchain : Blockchain.connectBlock env st.chain block c = .ok chain) :
    ((connectBlock env block c).run st).1 = connected env st block c chain := by
  rw [connectBlock, run_get_bind, rejectIf, if_neg (not_not.2 hprev), run_lift_ok_bind, hchain,
    run_lift_ok_bind, run_set_bind, run_release_bind]
  split_ifs
  · cases env.requiredStakeDifficulty (Chain.headers chain.chain) <;> rfl
  · rfl

/-- `connectBlock` fails and changes nothing, or puts the block on the main chain. -/
theorem connectBlock_cases (env : Env) (st : NodeState) (block : MsgBlock) (c : Connecting) :
    (∃ e, (connectBlock env block c).run st = (st, .error e)) ∨
    ∃ chain, block.header.prevBlock = nodeHash env st.main ∧
    Blockchain.connectBlock env st.chain block c = .ok chain ∧
      ((connectBlock env block c).run st).1 = connected env st block c chain := by
  by_cases hprev : block.header.prevBlock = nodeHash env st.main
  · cases hchain : Blockchain.connectBlock env st.chain block c with
    | ok chain => exact .inr ⟨chain, hprev, rfl, fst_run_connectBlock hprev hchain⟩
    | error e =>
      refine .inl ⟨e, ?_⟩
      rw [connectBlock, run_get_bind, rejectIf, if_neg (not_not.2 hprev), run_lift_ok_bind, hchain,
        run_lift_error_bind]
  · refine .inl ⟨.assertion, ?_⟩
    rw [connectBlock, run_get_bind, rejectIf, if_pos hprev, run_lift_error_bind]

theorem branchOf_of_connectBlock {chain chain' : ChainState}
    (h : Blockchain.connectBlock env chain block c = .ok chain') :
    branchOf chain' = block :: branchOf chain := by
  simp only [Blockchain.connectBlock, bind_eq_ok, pure_eq_ok] at h
  obtain ⟨_, -, stakeNode, -, rfl⟩ := h
  rfl

/-- Connecting a block adds its node. -/
theorem nodes_connected (h : Blockchain.connectBlock env st.chain block c = .ok chain)
    (hunique : ∀ node ∈ st.sides, nodeHash env node = env.blockHash block.header →
      node = block :: st.main) :
    (connected env st block c chain).nodes = insert (block :: st.main) st.nodes := by
  ext node
  have hside : node ∈ (connected env st block c chain).sides ↔
      node ∈ st.sides ∧ nodeHash env node ≠ env.blockHash block.header := by simp [connected]
  have hsame := hunique node
  simp only [NodeState.nodes, Set.mem_ofPred_eq, Set.mem_insert_iff,
    show (connected env st block c chain).main = _ from branchOf_of_connectBlock h,
    mem_branchTree_cons, hside]
  tauto

/-- Disconnecting a block keeps its node. -/
theorem nodes_disconnected {view : UtxoViewpoint} {tip : ChainBlock} {below : Chain}
    (hbelow : st.chain.below = tip :: below) :
    (disconnected env st block view tip below).nodes = st.nodes := by
  have hmain : st.main = st.chain.tip.block :: (disconnected env st block view tip below).main := by
    rw [NodeState.main, branchOf, ChainState.chain, hbelow]
    rfl
  have hsides : (disconnected env st block view tip below).sides = st.main :: st.sides := rfl
  ext node
  simp only [NodeState.nodes, Set.mem_ofPred_eq, hsides, mem_cons, hmain, mem_branchTree_cons]
  tauto

/-- Two states with the same nodes and orphans. -/
structure SameNodes (st st' : NodeState) : Prop where
  nodes : st'.nodes = st.nodes
  orphans : st'.orphans = st.orphans

theorem SameNodes.refl (st : NodeState) : SameNodes st st := ⟨rfl, rfl⟩

/-- Two steps that keep the nodes. -/
theorem SameNodes.trans {st'' : NodeState} (h : SameNodes st st') (h' : SameNodes st' st'') :
    SameNodes st st'' := ⟨h'.nodes.trans h.nodes, h'.orphans.trans h.orphans⟩

/-- The same nodes have the same index. -/
theorem Indexed.of_sameNodes (h : Indexed env st) (hsame : SameNodes st st') : Indexed env st' where
  rooted := hsame.nodes ▸ h.rooted
  parent := hsame.nodes ▸ h.parent
  unique := hsame.nodes ▸ h.unique
  orphan := hsame.nodes ▸ hsame.orphans ▸ h.orphan

/-- Connecting a block that is a node keeps the nodes. -/
theorem Indexed.sameNodes_connectBlock (h : Indexed env st)
    (hnode : block :: rest ∈ st.nodes) (hne : rest ≠ []) (c : Connecting) :
    SameNodes st ((connectBlock env block c).run st).1 := by
  obtain ⟨e, hsame⟩ | ⟨chain, hprev, hchain, heq⟩ := connectBlock_cases env st block c
  · rw [hsame]
    exact SameNodes.refl st
  · obtain rfl : rest = st.main := by
      refine h.unique _ (h.parent block rest hnode hne) _ (main_mem_nodes st) ?_
      rw [← hprev, (h.rooted _ hnode).prevBlock_eq hne]
    rw [heq]
    refine ⟨?_, rfl⟩
    rw [nodes_connected hchain fun node hside hhash => h.unique node (.inr hside) _ hnode hhash,
      Set.insert_eq_of_mem hnode]

theorem sameNodes_disconnectBlock (env : Env) (st : NodeState) (block : MsgBlock)
    (view : UtxoViewpoint) :
    SameNodes st ((disconnectBlock env block view).run st).1 := by
  rw [disconnectBlock, run_get_bind]
  by_cases htip : env.blockHash block.header = nodeHash env st.main
  · rw [rejectIf, if_neg (not_not.2 htip), run_lift_ok_bind]
    cases hbelow : st.chain.below with
    | nil => exact SameNodes.refl st
    | cons tip below => exact ⟨nodes_disconnected hbelow, rfl⟩
  · rw [rejectIf, if_pos htip]
    exact SameNodes.refl st

/-! ## Reorganizations -/

/-- The state is sound and has the nodes that it had. -/
def KeepsNodes (env : Env) (st : NodeState) (s : NodeState) : Prop := Indexed env s ∧ SameNodes st s

theorem keeps_detachBlock (view : UtxoViewpoint) (n : (MsgBlock × MsgBlock) × List SpentTxOut) :
    Call.Keeps (KeepsNodes env st) (detachBlock env view n) := by
  rintro s ⟨hs, hsame⟩
  rw [detachBlock, run_get_bind]
  cases fetchInputUtxos env s.chain.utxos view n.1.1 n.1.2 with
  | error e => exact ⟨hs, hsame⟩
  | ok view =>
    rw [run_lift_ok_bind]
    cases disconnectTransactions env s.chain.utxos ⟨view, n.2⟩ n.1.1 n.1.2 with
    | error e => exact ⟨hs, hsame⟩
    | ok c =>
      have hstep := sameNodes_disconnectBlock env s n.1.1 c.view
      exact ⟨hs.of_sameNodes hstep, hsame.trans hstep⟩

theorem keeps_attachBlock (view : UtxoViewpoint) (hnode : block :: rest ∈ st.nodes)
    (hne : rest ≠ []) : Call.Keeps (KeepsNodes env st) (attachBlock env view block) := by
  rintro s ⟨hs, hsame⟩
  rw [attachBlock, run_get_bind]
  cases fetchBlockFromHash env s block.header.prevBlock with
  | error e => exact ⟨hs, hsame⟩
  | ok parent =>
    rw [run_lift_ok_bind]
    cases connectTransactions env s.chain.utxos ⟨view, []⟩ block parent with
    | error e => exact ⟨hs, hsame⟩
    | ok c =>
      have hstep := hs.sameNodes_connectBlock (hsame.nodes ▸ hnode) hne c
      exact ⟨hs.of_sameNodes hstep, hsame.trans hstep⟩

theorem Indexed.exists_of_mem_attachNodes (h : Indexed env st) (hnode : node ∈ st.nodes)
    (hblock : block ∈ attachNodes env st.main node) :
    ∃ rest, rest ≠ [] ∧ block :: rest ∈ st.nodes := by
  rw [attachNodes, mem_reverse] at hblock
  have hnot := mem_takeWhile_imp hblock
  obtain ⟨above, rest, hsplit⟩ := append_of_mem ((takeWhile_sublist _).subset hblock)
  have hs : block :: rest <:+ node := ⟨above, hsplit.symm⟩
  have hmem := h.suffix hnode hs (cons_ne_nil _ _)
  refine ⟨rest, ?_, hmem⟩
  rintro rfl
  -- The genesis block is in the main chain.
  have hgenesis : block = env.params.genesisBlock := h.rooted _ hmem
  have hmain := (h.rooted _ (main_mem_nodes st)).genesis_mem.subset mem_cons_self
  rw [Bool.not_eq_true', inMainChain, any_eq_false] at hnot
  exact hnot _ (hgenesis ▸ hmain) (by simp)

/-- A reorganization keeps the nodes, also one that fails. -/
theorem Indexed.keepsNodes_reorganizeChain (h : Indexed env st) (hnode : node ∈ st.nodes) :
    KeepsNodes env st ((reorganizeChain env node).run st).1 := by
  have hstart : KeepsNodes env st st := ⟨h, SameNodes.refl st⟩
  rw [reorganizeChain, run_get_bind]
  cases checkReorganize env st node with
  | error e => exact hstart
  | ok stxos =>
    rw [run_lift_ok_bind, run_release_bind]
    refine Call.Keeps.bind (Call.Keeps.foldlM fun n _ view => keeps_detachBlock view n)
      (fun view => ?_) st hstart
    refine Call.Keeps.bind (Call.Keeps.foldlM fun block hblock view => ?_) (fun _ => keeps_pure _)
    obtain ⟨rest, hne, hmem⟩ := h.exists_of_mem_attachNodes hnode hblock
    exact keeps_attachBlock view hmem hne

/-! ## Accepting a block -/

/-- A state with one more node. -/
structure AddsNode (st : NodeState) (node : Branch) (st' : NodeState) : Prop where
  nodes : st'.nodes = insert node st.nodes
  orphans : st'.orphans = st.orphans

/-- A block that no node and no orphan has the hash of. -/
structure Fresh (env : Env) (st : NodeState) (block : MsgBlock) : Prop where
  node : ∀ node ∈ st.nodes, nodeHash env node ≠ env.blockHash block.header
  orphan : ∀ o ∈ st.orphans, env.blockHash o.block.header ≠ env.blockHash block.header

/-- A fresh block that can stand on top of a node. -/
structure Attaches (env : Env) (st : NodeState) (prev : Branch) (block : MsgBlock) : Prop where
  mem : prev ∈ st.nodes
  fresh : Fresh env st block
  rooted : Rooted env (block :: prev)

/-- A block names the parent it attaches to. -/
theorem Attaches.link (h : Indexed env st) (ha : Attaches env st prev block) :
    block.header.prevBlock = nodeHash env prev := ha.rooted.prevBlock_eq (h.rooted _ ha.mem).ne_nil

/-- A new node above a node of the index. -/
theorem Indexed.insert (h : Indexed env st) (ha : Attaches env st prev block)
    (hadds : AddsNode st (block :: prev) st') : Indexed env st' where
  rooted := by
    rw [hadds.nodes]
    rintro node (rfl | hnode)
    · exact ha.rooted
    · exact h.rooted node hnode
  parent := by
    rw [hadds.nodes]
    rintro b below (heq | hnode) hne
    · rw [(cons.inj heq).2]
      exact Set.mem_insert_of_mem _ ha.mem
    · exact Set.mem_insert_of_mem _ (h.parent b below hnode hne)
  unique := by
    rw [hadds.nodes]
    rintro node (rfl | hnode) node' (rfl | hnode') heq
    · rfl
    · exact absurd heq.symm (ha.fresh.node node' hnode')
    · exact absurd heq (ha.fresh.node node hnode)
    · exact h.unique node hnode node' hnode' heq
  orphan := by
    rw [hadds.nodes, hadds.orphans]
    rintro o ho node (rfl | hnode)
    · exact (ha.fresh.orphan o ho).symm
    · exact h.orphan o ho node hnode

/-- What `checkAccept` establishes. -/
theorem parent_of_checkAccept (h : checkAccept env st block = .ok prev) :
    st.node env block.header.prevBlock = some prev ∧ checkMicroPerKey env st block = .ok ⟨⟩ ∧
    ∃ parent below, prev = parent :: below ∧ block.header.height = parent.header.height + 1 := by
  rw [checkAccept] at h
  cases hnode : st.node env block.header.prevBlock with
  | none => rw [hnode] at h; exact nomatch h
  | some found =>
    rw [hnode] at h
    cases found with
    | nil => exact nomatch h
    | cons parent below =>
      obtain ⟨_, hmicro, h⟩ := bind_eq_ok.1 h
      obtain ⟨_, hcontext, h⟩ := bind_eq_ok.1 h
      have hprev : parent :: below = prev := by
        split_ifs at h with hold
        · obtain ⟨_, -, h⟩ := bind_eq_ok.1 h
          exact pure_eq_ok.1 h
        · exact pure_eq_ok.1 h
      refine ⟨congrArg some hprev, hmicro, parent, below, hprev.symm, ?_⟩
      exact height_of_checkBlockContext hcontext

/-- A block that passes `checkAccept` attaches to its parent. -/
theorem Indexed.attaches (h : Indexed env st) (hfresh : Fresh env st block)
    (haccept : checkAccept env st block = .ok prev) : Attaches env st prev block := by
  obtain ⟨hfound, -, parent, below, rfl, hheight⟩ := parent_of_checkAccept haccept
  obtain ⟨hmem, hhash⟩ := mem_nodes_of_node hfound
  exact ⟨hmem, hfresh, hhash.symm, hheight, h.rooted _ hmem⟩

/-- `maybeAcceptBlock` after its checks. -/
theorem run_maybeAcceptBlock (haccept : checkAccept env st block = .ok prev) :
    (maybeAcceptBlock env block).run st = (connectBestChain env prev block).run st := by
  rw [maybeAcceptBlock, run_get_bind, haccept, run_lift_ok_bind]
  cases hrun : (connectBestChain env prev block).run st with
  | mk s result =>
    cases result with
    | ok isMainChain => rw [run_bind_of_ok hrun]; rfl
    | error e => rw [run_bind_of_error hrun]

theorem Attaches.addsNode_connected (ha : Attaches env st st.main block)
    (hchain : Blockchain.connectBlock env st.chain block c = .ok chain) :
    AddsNode st (block :: st.main) (connected env st block c chain) :=
  ⟨nodes_connected hchain fun node hside hhash =>
    absurd hhash (ha.fresh.node node (.inr hside)), rfl⟩

/-- `extendMain` after its checks. -/
theorem run_extendMain
    (hkey : prevKeyHashExists env block.header st.chain.tip.block.header = .ok ⟨⟩)
    (hc : checkConnectBlock env st.chain.utxos st.chain.tip st.chain.below block = .ok c) :
    (extendMain env block).run st = (connectBlock env block c >>= fun _ => pure ⟨⟩).run st := by
  rw [extendMain, run_get_bind, hkey, run_lift_ok_bind, hc, run_lift_ok_bind]

/-- Extending the main chain fails and changes nothing, or connects the block, which then passed the
checks. -/
theorem extendMain_cases (env : Env) (st : NodeState) (block : MsgBlock) :
    (∃ e, (extendMain env block).run st = (st, .error e)) ∨
    ∃ c chain, prevKeyHashExists env block.header st.chain.tip.block.header = .ok ⟨⟩ ∧
      checkConnectBlock env st.chain.utxos st.chain.tip st.chain.below block = .ok c ∧
      Blockchain.connectBlock env st.chain block c = .ok chain ∧
      ((extendMain env block).run st).1 = connected env st block c chain := by
  cases hkey : prevKeyHashExists env block.header st.chain.tip.block.header with
  | error e =>
    refine .inl ⟨e, ?_⟩
    rw [extendMain, run_get_bind, hkey, run_lift_error_bind]
  | ok _ =>
    cases hc : checkConnectBlock env st.chain.utxos st.chain.tip st.chain.below block with
    | error e =>
      refine .inl ⟨e, ?_⟩
      rw [extendMain, run_get_bind, hkey, run_lift_ok_bind, hc, run_lift_error_bind]
    | ok c =>
      rw [run_extendMain hkey hc]
      obtain ⟨e, he⟩ | ⟨chain, -, hchain, hs⟩ := connectBlock_cases env st block c
      · exact .inl ⟨e, run_bind_of_error he⟩
      · exact .inr ⟨c, chain, rfl, rfl, hchain, fst_run_bind_pure.trans hs⟩

/-- A node on a side chain. -/
theorem addsNode_sides (st : NodeState) (node : Branch) :
    AddsNode st node { st with sides := st.sides ++ [node] } := by
  refine ⟨Set.ext fun n => ?_, rfl⟩
  have hmain : ({ st with sides := st.sides ++ [node] } : NodeState).main = st.main := rfl
  simp only [NodeState.nodes, Set.mem_insert_iff, Set.mem_ofPred_eq, hmain, mem_append,
    mem_singleton]
  tauto

/-- A block on a side chain adds its node, whatever becomes of the reorganization. -/
theorem Indexed.addsNode_sideChain (h : Indexed env st) (ha : Attaches env st prev block)
    (hside : block.header.prevBlock ≠ nodeHash env st.main) :
    AddsNode st (block :: prev) ((connectBestChain env prev block).run st).1 := by
  rw [connectBestChain, run_get_bind, if_neg hside, run_set_bind]
  have hadds := addsNode_sides st (block :: prev)
  split_ifs with hwork
  · exact hadds
  · have hindexed := h.insert ha hadds
    have hnode :
        block :: prev ∈ ({ st with sides := st.sides ++ [block :: prev] } : NodeState).nodes := by
      rw [hadds.nodes]
      exact Set.mem_insert _ _
    have hreorg := (hindexed.keepsNodes_reorganizeChain hnode).2
    rw [fst_run_bind_pure]
    exact ⟨hreorg.nodes.trans hadds.nodes, hreorg.orphans.trans hadds.orphans⟩

/-- `maybeAcceptBlock` fails and changes nothing, or adds the node of the block to the index. In
that case the block passed the checks, and it names the right key block if it is on top of the main
chain. -/
theorem Indexed.maybeAcceptBlock_cases (h : Indexed env st) (hfresh : Fresh env st block) :
    ((maybeAcceptBlock env block).run st).1 = st ∧
    (∃ e, ((maybeAcceptBlock env block).run st).2 = .error e) ∨
    ∃ prev, checkAccept env st block = .ok prev ∧
    AddsNode st (block :: prev) ((maybeAcceptBlock env block).run st).1 ∧
      Indexed env ((maybeAcceptBlock env block).run st).1 ∧
      (prev = st.main → prevKeyHashExists env block.header st.chain.tip.block.header = .ok ⟨⟩) := by
  cases haccept : checkAccept env st block with
  | error e =>
    rw [maybeAcceptBlock, run_get_bind, haccept]
    exact .inl ⟨rfl, e, rfl⟩
  | ok prev =>
    have ha := h.attaches hfresh haccept
    rw [run_maybeAcceptBlock haccept]
    by_cases hextend : block.header.prevBlock = nodeHash env st.main
    · obtain rfl : prev = st.main :=
        h.unique _ ha.mem _ (main_mem_nodes st) ((ha.link h).symm.trans hextend)
      rw [connectBestChain, run_get_bind, if_pos hextend, fst_run_bind_pure,
        error_run_bind_pure_iff]
      obtain ⟨e, he⟩ | ⟨c, chain, hkey, -, hchain, hs⟩ := extendMain_cases env st block
      · rw [he]
        exact .inl ⟨rfl, e, rfl⟩
      · have hadds := ha.addsNode_connected hchain
        rw [← hs] at hadds
        exact .inr ⟨st.main, rfl, hadds, h.insert ha hadds, fun _ => hkey⟩
    · have hadds := h.addsNode_sideChain ha hextend
      refine .inr ⟨prev, rfl, hadds, h.insert ha hadds, ?_⟩
      rintro rfl
      exact absurd (ha.link h) hextend

/-- An accepted block becomes a node. -/
theorem Indexed.adds_of_maybeAcceptBlock (h : Indexed env st) (hfresh : Fresh env st block)
    {s : NodeState}
    {isMainChain : Bool} (haccept : (maybeAcceptBlock env block).run st = (s, .ok isMainChain)) :
    ∃ prev, checkAccept env st block = .ok prev ∧ AddsNode st (block :: prev) s ∧
    Indexed env s := by
  have hcases := h.maybeAcceptBlock_cases hfresh
  rw [haccept] at hcases
  obtain ⟨-, e, he⟩ | ⟨prev, hcheck, hadds, hindexed, -⟩ := hcases
  · exact nomatch he
  · exact ⟨prev, hcheck, hadds, hindexed⟩

/-! ## The orphans that wait for a block -/

/-- The orphans that stay. -/
theorem mem_removeOrphanBlock {o o' : OrphanBlock} : o' ∈ (removeOrphanBlock env st o).orphans ↔
      o' ∈ st.orphans ∧ env.blockHash o'.block.header ≠ env.blockHash o.block.header := by
  rw [removeOrphanBlock, mem_filter, decide_eq_true_iff]

theorem Indexed.removeOrphanBlock (h : Indexed env st) (o : OrphanBlock) :
    Indexed env (removeOrphanBlock env st o) :=
  ⟨h.rooted, h.parent, h.unique, fun o' ho' => h.orphan o' (mem_removeOrphanBlock.1 ho').1⟩

/-- An orphan that is taken out is fresh. -/
theorem Indexed.fresh_removeOrphanBlock (h : Indexed env st) (ho : o ∈ st.orphans) :
    Fresh env (Process.removeOrphanBlock env st o) o.block :=
  ⟨h.orphan o ho, fun _ ho' => (mem_removeOrphanBlock.1 ho').2⟩

/-- The orphan that waits for a hash. -/
theorem mem_of_waitingOrphan (h : waitingOrphan st hash = some o) :
    o ∈ st.orphans ∧ o.block.header.prevBlock = hash :=
  ⟨mem_of_find?_eq_some h, by simpa using find?_some h⟩

/-- The loop rule of `processOrphans`. `I` holds of the state and the hashes that are left before
each turn, `E` when an orphan was not accepted. The turns suffice: each one takes a hash, or an
orphan for a hash. -/
theorem Indexed.processOrphans_rule (h : Indexed env st) (fuel : ℕ) (hashes : List Hash)
    {I : NodeState → List Hash → Prop} {E : NodeState → Prop}
    (hskip : ∀ st hash hashes, I st (hash :: hashes) → waitingOrphan st hash = none → I st hashes)
    (haccept : ∀ st hash hashes o s isMainChain, Indexed env st → I st (hash :: hashes) →
      waitingOrphan st hash = some o →
      (maybeAcceptBlock env o.block).run (Process.removeOrphanBlock env st o) =
        (s, .ok isMainChain) →
      I s (hash :: hashes ++ [env.blockHash o.block.header]))
    (hfail : ∀ st hash hashes o s e, Indexed env st → I st (hash :: hashes) →
      waitingOrphan st hash = some o →
      (maybeAcceptBlock env o.block).run (Process.removeOrphanBlock env st o) = (s, .error e) → E s)
    (hI : I st hashes) (hfuel : 2 * st.orphans.length + hashes.length ≤ fuel) :
    Indexed env ((processOrphans env fuel hashes).run st).1 ∧
      (((processOrphans env fuel hashes).run st).2 = .ok ⟨⟩ ∧
        I ((processOrphans env fuel hashes).run st).1 [] ∨
      (∃ e, ((processOrphans env fuel hashes).run st).2 = .error e) ∧
        E ((processOrphans env fuel hashes).run st).1) := by
  induction fuel generalizing st hashes with
  | zero =>
    obtain rfl : hashes = [] := length_eq_zero_iff.1 (by omega)
    exact ⟨h, .inl ⟨rfl, hI⟩⟩
  | succ fuel ih =>
    cases hashes with
    | nil => exact ⟨h, .inl ⟨rfl, hI⟩⟩
    | cons hash hashes =>
      rw [length_cons] at hfuel
      rw [processOrphans, run_get_bind]
      cases hwait : waitingOrphan st hash with
      | none => exact ih h hashes (hskip st hash hashes hI hwait) (by omega)
      | some o =>
        have ho := (mem_of_waitingOrphan hwait).1
        -- one orphan less pays for the turn and for the hash that is appended
        have hless : (Process.removeOrphanBlock env st o).orphans.length < st.orphans.length :=
          length_filter_lt_length_iff_exists.2 ⟨o, ho, by simp⟩
        have hcases := (h.removeOrphanBlock o).maybeAcceptBlock_cases (h.fresh_removeOrphanBlock ho)
        rw [run_set_bind]
        cases hrun : (maybeAcceptBlock env o.block).run (Process.removeOrphanBlock env st o) with
        | mk s result =>
          rw [hrun] at hcases
          have hs : Indexed env s ∧ s.orphans = (Process.removeOrphanBlock env st o).orphans := by
            obtain ⟨rfl, -⟩ | ⟨prev, -, hadds, hindexed, -⟩ := hcases
            · exact ⟨h.removeOrphanBlock o, rfl⟩
            · exact ⟨hindexed, hadds.orphans⟩
          cases result with
          | error e =>
            rw [run_bind_of_error hrun]
            exact ⟨hs.1, .inr ⟨⟨e, rfl⟩, hfail st hash hashes o s e h hI hwait hrun⟩⟩
          | ok isMainChain =>
            rw [run_bind_of_ok hrun]
            refine ih hs.1 _ (haccept st hash hashes o s isMainChain h hI hwait hrun) ?_
            rw [hs.2, length_append, length_cons, length_singleton]
            omega

/-! ## Whole calls -/

theorem mem_addOrphanBlock {now : ℤ} (h : o ∈ (addOrphanBlock env st now block).orphans) :
    o ∈ st.orphans ∨ o = ⟨block, now + orphanLifetime⟩ := by
  rw [addOrphanBlock] at h
  obtain h | h := mem_append.1 h
  · left
    split at h
    · split_ifs at h
      · exact (mem_filter.1 (mem_removeOrphanBlock.1 h).1).1
      · exact (mem_filter.1 h).1
    · exact (mem_filter.1 h).1
  · exact .inr (mem_singleton.1 h)

theorem nodes_addOrphanBlock (env : Env) (st : NodeState) (now : ℤ) (block : MsgBlock) :
    (addOrphanBlock env st now block).nodes = st.nodes := by
  rw [addOrphanBlock]
  split
  · split_ifs <;> rfl
  · rfl

/-- A block that passes `checkNew` is fresh. -/
theorem fresh_of_checkNew {d : Delivery} (h : checkNew env st d = .ok ⟨⟩) :
    Fresh env st d.block := by
  simp only [checkNew, bind_eq_ok, rejectIf_eq_ok, exists_const] at h
  obtain ⟨hexists, horphan, -⟩ := h
  refine ⟨fun node hnode heq => ?_, fun o ho heq => horphan ⟨o, ho, heq⟩⟩
  exact hexists (blockExists_iff.2 ⟨node, hnode, heq⟩)

theorem Indexed.addOrphanBlock (h : Indexed env st) (hfresh : Fresh env st block) (now : ℤ) :
    Indexed env (addOrphanBlock env st now block) := by
  have hnodes := nodes_addOrphanBlock env st now block
  refine ⟨hnodes ▸ h.rooted, hnodes ▸ h.parent, hnodes ▸ h.unique, ?_⟩
  rw [hnodes]
  intro o ho
  obtain ho | rfl := mem_addOrphanBlock ho
  · exact h.orphan o ho
  · exact hfresh.node

/-- `ProcessBlock` comes to `maybeAcceptBlock`: the block is new and sane, its parent is known, and
it names the key block that the parent gives. -/
def Tried (env : Env) (st : NodeState) (d : Delivery) : Prop :=
  checkNew env st d = .ok ⟨⟩ ∧ ∃ parent below, st.node env d.block.header.prevBlock =
    some (parent :: below) ∧
    prevKeyHashExists env d.block.header parent.header = .ok ⟨⟩

/-- The ways a call of `ProcessBlock` can go. -/
inductive ProcessSteps (env : Env) (st : NodeState) (d : Delivery) :
    NodeState × Except Err (Bool × Bool) → Prop
  | rejected (e : Err) (htried : ¬ Tried env st d) : ProcessSteps env st d (st, .error e)
  | orphan (hnew : checkNew env st d = .ok ⟨⟩)
      (hnode : st.node env d.block.header.prevBlock = none) :
    ProcessSteps env st d (addOrphanBlock env st d.now d.block, .ok (false, true))
  | failed {parent : MsgBlock} {below : Branch} {s : NodeState} {e : Err}
      (hnew : checkNew env st d = .ok ⟨⟩)
    (hnode : st.node env d.block.header.prevBlock = some (parent :: below))
    (hkey : prevKeyHashExists env d.block.header parent.header = .ok ⟨⟩)
    (haccept : (maybeAcceptBlock env d.block).run st = (s, .error e)) :
    ProcessSteps env st d (s, .error e)
  | accepted {parent : MsgBlock} {below : Branch} {s s' : NodeState} {isMainChain : Bool}
    {result : Except Err PUnit} (hnew : checkNew env st d = .ok ⟨⟩)
    (hnode : st.node env d.block.header.prevBlock = some (parent :: below))
    (hkey : prevKeyHashExists env d.block.header parent.header = .ok ⟨⟩)
    (haccept : (maybeAcceptBlock env d.block).run st = (s, .ok isMainChain))
    (horphans : (processOrphans env (2 * st.orphans.length + 2) [env.blockHash d.block.header]).run
      s = (s', result)) :
    ProcessSteps env st d (s', result.map fun _ => (isMainChain, false))

/-- `ProcessBlock` is a sequence of steps. -/
theorem processBlock_steps (env : Env) (st : NodeState) (d : Delivery) :
    ProcessSteps env st d ((processBlock env d).run st) := by
  rw [processBlock, run_get_bind]
  cases hnew : checkNew env st d with
  | error e => exact .rejected e fun htried => nomatch hnew.symm.trans htried.1
  | ok _ =>
    rw [run_lift_ok_bind]
    cases hnode : st.node env d.block.header.prevBlock with
    | none => exact .orphan hnew hnode
    | some prev =>
      cases prev with
      | nil =>
        apply ProcessSteps.rejected
        rintro ⟨-, parent, below, hfound, -⟩
        exact nomatch hnode.symm.trans hfound
      | cons parent below =>
        rw [run_lift_ok_bind]
        cases hkey : prevKeyHashExists env d.block.header parent.header with
        | error e =>
          apply ProcessSteps.rejected
          rintro ⟨-, parent', below', hfound, hok⟩
          obtain ⟨rfl, rfl⟩ := cons.inj (Option.some.inj (hnode.symm.trans hfound))
          exact nomatch hkey.symm.trans hok
        | ok _ =>
          rw [run_lift_ok_bind]
          cases haccept : (maybeAcceptBlock env d.block).run st with
          | mk s result =>
            cases result with
            | error e =>
              rw [run_bind_of_error haccept]
              exact .failed hnew hnode hkey haccept
            | ok isMainChain =>
              rw [run_bind_of_ok haccept, run_bind]
              cases horphans : (processOrphans env (2 * st.orphans.length + 2)
                  [env.blockHash d.block.header]).run s with
              | mk s' result =>
                have hsteps := ProcessSteps.accepted hnew hnode hkey haccept horphans
                cases result <;> exact hsteps

/-- `ProcessBlock` keeps the index, whether it fails or not. -/
theorem Indexed.processBlock (h : Indexed env st) (d : Delivery) :
    Indexed env ((processBlock env d).run st).1 := by
  have hsteps := processBlock_steps env st d
  generalize (Process.processBlock env d).run st = r at hsteps ⊢
  cases hsteps with
  | rejected e htried => exact h
  | orphan hnew hnode => exact h.addOrphanBlock (fresh_of_checkNew hnew) d.now
  | failed hnew hnode hkey haccept =>
    have hcases := h.maybeAcceptBlock_cases (fresh_of_checkNew hnew)
    rw [haccept] at hcases
    obtain ⟨rfl, -⟩ | ⟨_, -, -, hindexed, -⟩ := hcases
    · exact h
    · exact hindexed
  | accepted hnew hnode hkey haccept horphans =>
    obtain ⟨prev, -, hadds, hindexed⟩ := h.adds_of_maybeAcceptBlock (fresh_of_checkNew hnew) haccept
    have hloop :=
      hindexed.processOrphans_rule (2 * st.orphans.length + 2) [env.blockHash d.block.header]
      (I := fun _ _ => True) (E := fun _ => True) (fun _ _ _ _ _ => trivial)
        (fun _ _ _ _ _ _ _ _ _ _ => trivial)
      (fun _ _ _ _ _ _ _ _ _ _ => trivial) trivial (by rw [hadds.orphans]; exact Nat.le_succ _)
    rw [horphans] at hloop
    exact hloop.1

/-- So does `ForceHeadReorganization`. -/
theorem Indexed.keepsNodes_forceHeadReorganization (h : Indexed env st)
    (formerBest newBest : Hash) :
    KeepsNodes env st ((forceHeadReorganization env formerBest newBest).run st).1 := by
  have hstart : KeepsNodes env st st := ⟨h, SameNodes.refl st⟩
  rw [forceHeadReorganization, run_get_bind, rejectIf, rejectIf]
  split_ifs
  · exact hstart
  · exact hstart
  · exact hstart
  · rw [run_lift_ok_bind, run_lift_ok_bind]
    cases hnode : st.node env newBest with
    | none => exact hstart
    | some node => exact h.keepsNodes_reorganizeChain (mem_nodes_of_node hnode).1

/-- Requests lead from reachable states to reachable ones. -/
theorem Reachable.serveAll {P : NodeState → Request → Prop} (hst : Reachable env P st)
    (hP : ∀ st request, P st request) (requests : List Request) :
    Reachable env P (serveAll env st requests) := by
  induction requests generalizing st with
  | nil => exact hst
  | cons request requests ih => exact ih (hst.call (hP st request))

theorem fst_run_serve_process (env : Env) (st : NodeState) (d : Delivery) :
    ((serve env (.process d)).run st).1 = ((processBlock env d).run st).1 := fst_run_bind_pure

/-- The index of every state that a node reaches. -/
theorem indexed_of_reachable {P : NodeState → Request → Prop} (hst : Reachable env P st) :
    Indexed env st := by
  induction hst with
  | new => exact indexed_newNode env
  | @call st request _ _ ih =>
    cases request with
    | process d =>
      rw [fst_run_serve_process]
      exact ih.processBlock d
    | forceHead formerBest newBest =>
      exact (ih.keepsNodes_forceHeadReorganization formerBest newBest).1

end Hcashd.Blockchain.Process
