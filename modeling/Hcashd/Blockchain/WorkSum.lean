import Hcashd.Blockchain.BlockIndex
import Hcashd.Blockchain.Chain
import Hcashd.Lib.Memo

/-!
# Cumulative work

Every node of the index carries the work of the key blocks from the genesis block to it, and the
best state of the database the work of the best block, in every run in which no node is reloaded
from a child of other work and no block with work is disconnected (`workSum_consistent`). The
invariant `Inv` says where the numbers in the index, the links and the tables lead to; it holds
along every run, and with a clean history (`Clean`) it carries the work sums.
-/

namespace Hcashd.Blockchain.Index

open Lib List Function

section Spec

variable (env : Env) (headers : Set BlockHeader)

/-- The headers that occur: their hashes tell them apart, and the genesis block has no parent. -/
structure Headers : Prop where
  genesis_mem : env.params.genesisBlock.header ∈ headers
  hash_inj : Set.InjOn env.blockHash headers
  orphan : ∀ h ∈ headers, env.blockHash h ≠ env.params.genesisBlock.header.prevBlock

/-- The chains of headers from the genesis block on. -/
inductive Branch : List BlockHeader → Prop
  | genesis : Branch [env.params.genesisBlock.header]
  | child {h parent : BlockHeader} {below : List BlockHeader} (hmem : h ∈ headers)
      (hprev : h.prevBlock = env.blockHash parent) (hbelow : Branch (parent :: below)) :
      Branch (h :: parent :: below)

/-- The work of the key blocks of a branch. -/
def totalWork (branch : List BlockHeader) : ℤ :=
  ((branch.filter (isKeyBlock env)).map fun h => calcWork h.bits).sum

/-- The work sum is that of a branch below the header. -/
def Right (header : BlockHeader) (workSum : ℤ) : Prop :=
  ∃ below, Branch env headers (header :: below) ∧ workSum = totalWork env (header :: below)

/-- The work sums of the index and of the database are right. -/
structure Consistent (st : ChainIndex) : Prop where
  index : ∀ hash id, st.index hash = some id → ∃ n, st.nodes[id]? = some n ∧ n.hash env = hash ∧
    Right env headers n.header n.workSum
  best : ∃ n, st.nodes[st.bestNode]? = some n ∧ st.bestState = (n.hash env, n.workSum) ∧
    Right env headers n.header n.workSum

/-- No node was reloaded from a child of other work, and no block with work was disconnected. -/
def Clean (st : ChainIndex) : Prop :=
  (∀ x ∈ st.loadedByChild, blockWork env x.1 = blockWork env x.2) ∧ ∀ h ∈ st.disconnected,
    blockWork env h = 0

/-- The states that steps lead to. -/
inductive Run (fuel : ℕ) : ChainIndex → Prop
  | create : Run fuel (createChainState env)
  | step {st st' : ChainIndex} (op : Op) (hrun : Run fuel st)
      (hheader : ∀ header prune, op = .accept header prune → header ∈ headers)
      (hstep : Index.step env fuel st op = .ok st') : Run fuel st'

/-- A number leads to a node with a hash. -/
def Points (st : ChainIndex) (id : ℕ) (hash : Hash) : Prop :=
  ∃ n, st.nodes[id]? = some n ∧ n.hash env = hash

/-- Where everything in the index leads to. -/
structure Inv (st : ChainIndex) : Prop where
  nodes : ∀ n ∈ st.nodes, n.header ∈ headers ∧ (∃ below, Branch env headers (n.header :: below)) ∧
    (Clean env st → Right env headers n.header n.workSum)
  index : ∀ hash id, st.index hash = some id → Points env st id hash
  depNodes : ∀ hash, ∀ id ∈ st.depNodes hash, ∃ n, st.nodes[id]? = some n ∧
    n.header.prevBlock = hash
  parent : ∀ id parent, st.parent id = some parent →
    ∃ n, st.nodes[id]? = some n ∧ Points env st parent n.header.prevBlock
  blocks : ∀ hash header, st.blocks hash = some header → header ∈ headers ∧
    env.blockHash header = hash ∧
    ∃ below, Branch env headers (header :: below)
  genesis : st.blocks (genesisHash env) = some env.params.genesisBlock.header
  best : Points env st st.bestNode st.bestState.1
  bestWork : Clean env st → ∃ n, st.nodes[st.bestNode]? = some n ∧ st.bestState.2 = n.workSum

end Spec

variable {env : Env} {headers : Set BlockHeader} {st st' : ChainIndex} {header : BlockHeader}
  {id : ℕ} {hash : Hash}

/-! ## Work along a branch -/

/-- The work of a branch. -/
theorem totalWork_cons (h : BlockHeader) (below : List BlockHeader) :
    totalWork env (h :: below) = blockWork env h + totalWork env below := by
  unfold totalWork blockWork
  by_cases hkey : isKeyBlock env h = true
  · simp [hkey]
  · simp [hkey]

theorem Branch.mem (hh : Headers env headers) {h : BlockHeader} {below : List BlockHeader}
    (hb : Branch env headers (h :: below)) : h ∈ headers := by
  cases hb with
  | genesis => exact hh.genesis_mem
  | child hmem _ _ => exact hmem

variable {workSum : ℤ} {n : WorkNode} {r : ℕ × ChainIndex} {load : Loader}

/-- A child adds its own work. -/
theorem Right.child {parent : BlockHeader} (h : Right env headers parent workSum)
    (hmem : header ∈ headers) (hprev : header.prevBlock = env.blockHash parent) :
    Right env headers header (workSum + blockWork env header) := by
  obtain ⟨below, hbranch, rfl⟩ := h
  refine ⟨parent :: below, hbranch.child hmem hprev, ?_⟩
  rw [totalWork_cons header, add_comm]

theorem Branch.parent (hh : Headers env headers) {child : BlockHeader} {below : List BlockHeader}
    (hb : Branch env headers (child :: below)) (hmem : header ∈ headers)
    (hprev : child.prevBlock = env.blockHash header) :
    ∃ rest, below = header :: rest ∧ Branch env headers (header :: rest) := by
  cases hb with
  | genesis => exact absurd hprev.symm (hh.orphan header hmem)
  | child _ hprev' hbelow =>
    obtain rfl := hh.hash_inj (hbelow.mem hh) hmem (hprev'.symm.trans hprev)
    exact ⟨_, rfl, hbelow⟩

/-- A header has one branch. -/
theorem Branch.unique (hh : Headers env headers) {h : BlockHeader} {below below' : List BlockHeader}
    (hb : Branch env headers (h :: below)) (hb' : Branch env headers (h :: below')) :
    below = below' := by
  induction below generalizing h below' with
  | nil =>
    cases hb with
    | genesis =>
      cases hb' with
      | genesis => rfl
      | child _ hprev hbelow => exact absurd hprev.symm (hh.orphan _ (hbelow.mem hh))
  | cons parent below ih =>
    cases hb with
    | child _ hprev hbelow =>
      obtain ⟨rest, rfl, hrest⟩ := hb'.parent hh (hbelow.mem hh) hprev
      rw [ih hbelow hrest]

/-- A parent has the work of the child less the child's own. -/
theorem Right.parent (hh : Headers env headers) {child : BlockHeader}
    (h : Right env headers child workSum) (hmem : header ∈ headers)
    (hprev : child.prevBlock = env.blockHash header)
    (hwork : blockWork env header = blockWork env child) :
    Right env headers header (workSum - blockWork env header) := by
  obtain ⟨below, hbranch, rfl⟩ := h
  obtain ⟨rest, rfl, hrest⟩ := hbranch.parent hh hmem hprev
  refine ⟨rest, hrest, ?_⟩
  rw [totalWork_cons child, hwork]
  ring

/-! ## Changes of the index -/

/-- Only nodes are added, and blocks that were loaded by a child. -/
structure Grows (st st' : ChainIndex) : Prop where
  nodes : st.nodes <+: st'.nodes
  blocks : st'.blocks = st.blocks
  bestNode : st'.bestNode = st.bestNode
  bestState : st'.bestState = st.bestState
  loaded : st.loadedByChild ⊆ st'.loadedByChild
  disconnected : st'.disconnected = st.disconnected

theorem Grows.refl (st : ChainIndex) : Grows st st :=
  ⟨prefix_rfl, rfl, rfl, rfl, Subset.refl _, rfl⟩

/-- Two steps that grow the index. -/
theorem Grows.trans {st1 st2 st3 : ChainIndex} (h : Grows st1 st2) (h' : Grows st2 st3) :
    Grows st1 st3 :=
  ⟨h.nodes.trans h'.nodes, h'.blocks.trans h.blocks, h'.bestNode.trans h.bestNode,
    h'.bestState.trans h.bestState, Subset.trans h.loaded h'.loaded,
    h'.disconnected.trans h.disconnected⟩

theorem Grows.node (h : Grows st st') (hn : st.nodes[id]? = some n) : st'.nodes[id]? = some n := by
  obtain ⟨extra, hextra⟩ := h.nodes
  rw [← hextra, getElem?_append_left (List.getElem?_eq_some_iff.1 hn).1, hn]

theorem Grows.points (h : Grows st st') (hp : Points env st id hash) : Points env st' id hash := by
  obtain ⟨n, hn, hhash⟩ := hp
  exact ⟨n, h.node hn, hhash⟩

theorem node_eq_ok : st.node id = .ok n ↔ st.nodes[id]? = some n := by
  unfold ChainIndex.node
  cases st.nodes[id]? <;> simp

theorem Points.node (h : Points env st id hash) (hn : st.node id = .ok n) : n.hash env = hash := by
  obtain ⟨n', hn', hhash⟩ := h
  rw [node_eq_ok, hn', Option.some.injEq] at hn
  rw [← hn, hhash]

section

variable (h : Inv env headers st)

include h

/-- Without wrong loads every node has the work of its branch. -/
theorem Inv.right (hclean : Clean env st) (hn : st.nodes[id]? = some n) :
    Right env headers n.header n.workSum :=
  (h.nodes n (mem_of_getElem? hn)).2.2 hclean

/-- Clean states are consistent. -/
theorem Inv.consistent (hclean : Clean env st) : Consistent env headers st := by
  constructor
  · intro hash id hid
    obtain ⟨n, hn, hhash⟩ := h.index hash id hid
    exact ⟨n, hn, hhash, h.right hclean hn⟩
  · obtain ⟨n, hn, hwork⟩ := h.bestWork hclean
    obtain ⟨n', hn', hhash⟩ := h.best
    obtain rfl := Option.some.inj (hn.symm.trans hn')
    exact ⟨n, hn, Prod.ext hhash.symm hwork, h.right hclean hn⟩

/-- A new node. -/
theorem Inv.alloc (hmem : header ∈ headers)
    (hbranch : ∃ below, Branch env headers (header :: below))
    (hright : Clean env st → Right env headers header workSum) :
    Inv env headers (st.alloc ⟨header, workSum⟩) ∧ Grows st (st.alloc ⟨header, workSum⟩) ∧
      (st.alloc ⟨header, workSum⟩).nodes[st.next]? = some ⟨header, workSum⟩ := by
  have hgrows : Grows st (st.alloc ⟨header, workSum⟩) :=
    ⟨prefix_append _ _, rfl, rfl, rfl, Subset.refl _, rfl⟩
  refine ⟨⟨fun n hn => ?_, fun k i hi => hgrows.points (h.index k i hi), fun k i hi => ?_,
    fun i p hi => ?_, h.blocks, h.genesis, hgrows.points h.best, fun hclean => ?_⟩, hgrows,
    by simp [ChainIndex.alloc, ChainIndex.next]⟩
  · rcases mem_append.1 hn with hn | hn
    · exact h.nodes n hn
    · rw [mem_singleton.1 hn]
      exact ⟨hmem, hbranch, hright⟩
  · obtain ⟨n, hn, hprev⟩ := h.depNodes k i hi
    exact ⟨n, hgrows.node hn, hprev⟩
  · have hne : i ≠ st.next := by
      rintro rfl
      simp [ChainIndex.alloc] at hi
    simp only [ChainIndex.alloc, update_of_ne hne] at hi
    obtain ⟨n, hn, hp⟩ := h.parent i p hi
    exact ⟨n, hgrows.node hn, hgrows.points hp⟩
  · obtain ⟨n, hn, hwork⟩ := h.bestWork hclean
    exact ⟨n, hgrows.node hn, hwork⟩

/-- Linking a node to its parent. -/
theorem Inv.setParent {parent : ℕ}
    (hn : st.nodes[id]? = some n) (hp : Points env st parent n.header.prevBlock) :
    Inv env headers (st.setParent id (some parent)) :=
  { h with parent := TableSound.update h.parent ⟨n, hn, hp⟩ }

/-- Linking a child. -/
theorem Inv.addChild (id child : ℕ) : Inv env headers (st.addChild id child) :=
  { h with }

/-- Registering a node. -/
theorem Inv.register (hn : st.nodes[id]? = some n) :
    Inv env headers (st.register env id n.header) := by
  refine { h with index := TableSound.update h.index ⟨n, hn, rfl⟩, depNodes := fun k i hi => ?_ }
  simp only [ChainIndex.register, update_apply] at hi
  split_ifs at hi with heq
  · subst heq
    rcases mem_append.1 hi with hi | hi
    · exact h.depNodes _ i hi
    · exact ⟨n, mem_singleton.1 hi ▸ hn, rfl⟩
  · exact h.depNodes k i hi

end

theorem Grows.setParent (id : ℕ) (parent : Option ℕ) : Grows st (st.setParent id parent) :=
  { Grows.refl st with }

theorem Grows.addChild (id child : ℕ) : Grows st (st.addChild id child) := { Grows.refl st with }

theorem Grows.register (id : ℕ) (header : BlockHeader) : Grows st (st.register env id header) :=
  { Grows.refl st with }

/-! ## Loading nodes -/

/-- What is asked of a function that returns a node with a given hash. -/
def Finds (env : Env) (headers : Set BlockHeader) (st : ChainIndex) (hash : Hash)
    (r : ℕ × ChainIndex) : Prop :=
  Inv env headers r.2 ∧ Grows st r.2 ∧ Points env r.2 r.1 hash

/-- A node loaded under its parent. -/
theorem loadUnder_spec (h : Inv env headers st) (hmem : header ∈ headers)
    (hbranch : ∃ below, Branch env headers (header :: below)) {parent : ℕ}
    (hparent : Points env st parent header.prevBlock)
    (hrun : loadUnder env st header parent = .ok r) :
    Finds env headers st (env.blockHash header) r := by
  obtain ⟨p, hp, hr⟩ := bind_eq_ok.1 hrun
  obtain rfl := pure_eq_ok.1 hr
  have hhash := hparent.node hp
  have hright : Clean env st → Right env headers header (p.workSum + blockWork env header) :=
    fun hclean => (h.right hclean (node_eq_ok.1 hp)).child hmem hhash.symm
  obtain ⟨hinv, hgrows, hnew⟩ := h.alloc hmem hbranch hright
  have hinv1 := (hinv.addChild parent st.next).setParent hnew (hgrows.points hparent)
  refine ⟨hinv1.register hnew, ?_, ⟨_, hnew, rfl⟩⟩
  exact hgrows.trans ((Grows.addChild _ _).trans ((Grows.setParent _ _).trans (Grows.register _ _)))

/-- Linking the waiting children. -/
theorem Inv.linkChildren {hash : Hash} (childNodes : List ℕ) (h : Inv env headers st)
    (hp : Points env st id hash)
    (hchildren : ∀ c ∈ childNodes, ∃ n, st.nodes[c]? = some n ∧ n.header.prevBlock = hash) :
    Inv env headers (childNodes.foldl (fun st c => (st.setParent c (some id)).addChild id c) st) ∧
      Grows st (childNodes.foldl (fun st c => (st.setParent c (some id)).addChild id c) st) := by
  induction childNodes generalizing st with
  | nil => exact ⟨h, Grows.refl st⟩
  | cons c childNodes ih =>
    obtain ⟨⟨n, hn, hprev⟩, hchildren⟩ := forall_mem_cons.1 hchildren
    have hstep : Inv env headers ((st.setParent c (some id)).addChild id c) :=
      (h.setParent hn (hprev ▸ hp)).addChild id c
    have hgrows : Grows st ((st.setParent c (some id)).addChild id c) :=
      (Grows.setParent _ _).trans (Grows.addChild _ _)
    obtain ⟨hinv, hgrows'⟩ := ih hstep (hgrows.points hp) fun c' hc' => hchildren c' hc'
    exact ⟨hinv, hgrows.trans hgrows'⟩

/-- A node loaded over its children. -/
theorem loadOver_spec (hh : Headers env headers) (h : Inv env headers st)
    (hblock : st.blocks hash = some header) {child : ℕ} {childNodes : List ℕ}
    (hdep : st.depNodes hash = child :: childNodes)
    (hrun : loadOver env st header child childNodes = .ok r) : Finds env headers st hash r := by
  obtain ⟨hmem, rfl, hbranch⟩ := h.blocks hash header hblock
  obtain ⟨c, hc, hr⟩ := bind_eq_ok.1 hrun
  obtain rfl := pure_eq_ok.1 hr
  obtain ⟨c', hc', hprev⟩ := h.depNodes (env.blockHash header) child (by simp [hdep])
  obtain rfl := Option.some.inj (hc'.symm.trans (node_eq_ok.1 hc))
  -- the record of the load makes a clean history mean that the works agree
  generalize hlog : { st with loadedByChild := st.loadedByChild ++ [(header, c'.header)] } = st1
  have hclean : Clean env st1 → Clean env st ∧ blockWork env header = blockWork env c'.header := by
    rintro ⟨hloaded, hundone⟩
    subst hlog
    exact ⟨⟨fun x hx => hloaded x (mem_append_left _ hx), hundone⟩,
      hloaded (header, c'.header) (by simp)⟩
  have hgrows1 : Grows st st1 := by
    subst hlog
    exact ⟨prefix_rfl, rfl, rfl, rfl, subset_append_left _ _, rfl⟩
  have hinv1 : Inv env headers st1 := by
    have hnodes :
        ∀ n ∈ st.nodes, n.header ∈ headers ∧ (∃ below, Branch env headers (n.header :: below)) ∧
        (Clean env st1 → Right env headers n.header n.workSum) := fun n hn =>
      ⟨(h.nodes n hn).1, (h.nodes n hn).2.1, fun hc => (h.nodes n hn).2.2 (hclean hc).1⟩
    have hwork := fun hc => h.bestWork (hclean hc).1
    subst hlog
    exact { h with nodes := hnodes, bestWork := hwork }
  have hright : Clean env st1 → Right env headers header (c'.workSum - blockWork env header) := by
    intro hc
    obtain ⟨hclean, hwork⟩ := hclean hc
    exact (h.right hclean hc').parent hh hmem hprev hwork
  obtain ⟨hinv2, hgrows2, hnew⟩ := hinv1.alloc hmem hbranch hright
  have hpoints : Points env _ st1.next (env.blockHash header) := ⟨_, hnew, rfl⟩
  obtain ⟨hinv3, hgrows3⟩ := hinv2.linkChildren (child :: childNodes) hpoints fun a ha => by
    obtain ⟨n, hn, hprev⟩ := h.depNodes (env.blockHash header) a (hdep ▸ ha)
    exact ⟨n, (hgrows1.trans hgrows2).node hn, hprev⟩
  refine ⟨hinv3.register (hgrows3.node hnew), ?_,
    (Grows.register _ _).points (hgrows3.points hpoints)⟩
  exact hgrows1.trans (hgrows2.trans (hgrows3.trans (Grows.register _ _)))

/-- A function that loads nodes. -/
def Loads (env : Env) (headers : Set BlockHeader) (load : Loader) : Prop :=
  ∀ st hash r, Inv env headers st → load st hash = .ok r → Finds env headers st hash r

theorem Finds.trans {st1 st2 : ChainIndex} (hgrows : Grows st1 st2)
    (h : Finds env headers st2 hash r) : Finds env headers st1 hash r :=
  ⟨h.1, hgrows.trans h.2.1, h.2.2⟩

section

variable (hload : Loads env headers load)
include hload

theorem parentOrLoad_spec (h : Inv env headers st) (hn : st.nodes[id]? = some n)
    (hrun : parentOrLoad load st id n = .ok r) : Finds env headers st n.header.prevBlock r := by
  unfold parentOrLoad at hrun
  cases hp : st.parent id with
  | none =>
    rw [hp] at hrun
    exact hload st _ r h hrun
  | some parent =>
    rw [hp] at hrun
    obtain rfl := pure_eq_ok.1 hrun
    obtain ⟨n', hn', hpoints⟩ := h.parent id parent hp
    rw [hn, Option.some.injEq] at hn'
    exact ⟨h, Grows.refl st, hn' ▸ hpoints⟩

/-- The loop finds a node with the hash. -/
theorem findLoop_spec {steps : ℕ} (h : Inv env headers st) {r : Option ℕ × ChainIndex}
    (hrun : findLoop env load hash steps st id = .ok r) :
    Inv env headers r.2 ∧ Grows st r.2 ∧ ∀ found, r.1 = some found → Points env r.2 found hash := by
  induction steps generalizing st id with
  | zero =>
    obtain rfl := pure_eq_ok.1 hrun
    exact ⟨h, Grows.refl st, by simp⟩
  | succ steps ih =>
    obtain ⟨n, hn, hrun⟩ := bind_eq_ok.1 hrun
    rw [node_eq_ok] at hn
    split_ifs at hrun with hgenesis hfound
    · obtain rfl := pure_eq_ok.1 hrun
      exact ⟨h, Grows.refl st, by simp⟩
    · obtain rfl := pure_eq_ok.1 hrun
      refine ⟨h, Grows.refl st, fun found heq => ?_⟩
      obtain rfl := Option.some.inj heq
      exact ⟨n, hn, hfound⟩
    · obtain ⟨⟨parent, st1⟩, hparent, hrun⟩ := bind_eq_ok.1 hrun
      obtain ⟨hinv1, hgrows1, -⟩ := parentOrLoad_spec hload h hn hparent
      obtain ⟨hinv, hgrows, hpoints⟩ := ih hinv1 hrun
      exact ⟨hinv, hgrows1.trans hgrows, hpoints⟩

/-- `findNode` finds a node with the hash. -/
theorem findNode_spec (h : Inv env headers st) (hrun : findNode env load st hash = .ok r) :
    Finds env headers st hash r := by
  obtain ⟨best, hbest, hrun⟩ := bind_eq_ok.1 hrun
  by_cases heq : hash = best.hash env
  · rw [if_pos heq] at hrun
    obtain rfl := pure_eq_ok.1 hrun
    exact ⟨h, Grows.refl st, best, node_eq_ok.1 hbest, heq.symm⟩
  · rw [if_neg heq] at hrun
    obtain ⟨⟨found, st1⟩, hloop, hrun⟩ := bind_eq_ok.1 hrun
    obtain ⟨hinv1, hgrows1, hfound⟩ := findLoop_spec hload h hloop
    dsimp only at hrun
    by_cases hgenesis : hash = genesisHash env
    · rw [if_pos hgenesis] at hrun
      exact (hload st1 hash r hinv1 hrun).trans hgrows1
    · rw [if_neg hgenesis] at hrun
      cases found with
      | none => cases hrun
      | some id =>
        obtain rfl := pure_eq_ok.1 hrun
        exact ⟨hinv1, hgrows1, hfound id rfl⟩

end

/-- `loadBlockNode` loads the node of a hash. -/
theorem loadBlockNode_spec (hh : Headers env headers) (fuel : ℕ) :
    Loads env headers (loadBlockNode env fuel) := by
  induction fuel with
  | zero => exact fun _ _ _ _ hrun => by cases hrun
  | succ fuel ih =>
    intro st hash r h hrun
    rw [loadBlockNode] at hrun
    cases hblock : st.blocks hash with
    | none => simp [hblock] at hrun
    | some header =>
      obtain ⟨hmem, rfl, hbranch⟩ := h.blocks hash header hblock
      simp only [hblock] at hrun
      cases hindex : st.index header.prevBlock with
      | some parent =>
        simp only [hindex] at hrun
        exact loadUnder_spec h hmem hbranch (h.index _ _ hindex) hrun
      | none =>
        cases hdep : st.depNodes (env.blockHash header) with
        | cons child childNodes =>
          simp only [hindex, hdep] at hrun
          exact loadOver_spec hh h hblock hdep hrun
        | nil =>
          simp only [hindex, hdep] at hrun
          cases hfind : findNode env (loadBlockNode env fuel) st header.prevBlock with
          | error e => simp [hfind] at hrun
          | ok x =>
            obtain ⟨parent, st1⟩ := x
            simp only [hfind] at hrun
            obtain ⟨hinv1, hgrows1, hpoints⟩ := findNode_spec ih h hfind
            exact (loadUnder_spec hinv1 hmem hbranch hpoints hrun).trans hgrows1

/-- What is asked of a function that may load nodes. -/
def Keeps (env : Env) (headers : Set BlockHeader) (st st' : ChainIndex) : Prop :=
  Inv env headers st' ∧ Grows st st'

theorem Keeps.refl (h : Inv env headers st) : Keeps env headers st st := ⟨h, Grows.refl st⟩

theorem Finds.returned (h : Finds env headers st hash r) :
    Keeps env headers st r.2 ∧ ∀ prev, some r.1 = some prev → Points env r.2 prev hash :=
  ⟨⟨h.1, h.2.1⟩, fun _ hprev => Option.some.inj hprev ▸ h.2.2⟩

section

variable (hload : Loads env headers load) {found : Option ℕ × ChainIndex}
include hload

/-- `getPrevNodeFromNode` gives the parent. -/
theorem getPrevNodeFromNode_spec (h : Inv env headers st)
    (hrun : getPrevNodeFromNode env load st id = .ok found) :
    Keeps env headers st found.2 ∧ ∃ n, st.nodes[id]? = some n ∧
      ∀ prev, found.1 = some prev → Points env found.2 prev n.header.prevBlock := by
  obtain ⟨n, hn, hrun⟩ := bind_eq_ok.1 hrun
  rw [node_eq_ok] at hn
  cases hp : st.parent id with
  | some parent =>
    simp only [hp] at hrun
    obtain rfl := pure_eq_ok.1 hrun
    obtain ⟨n', hn', hpoints⟩ := h.parent id parent hp
    exact ⟨.refl h, n', hn', fun _ hprev => Option.some.inj hprev ▸ hpoints⟩
  | none =>
    simp only [hp] at hrun
    split_ifs at hrun
    · obtain rfl := pure_eq_ok.1 hrun
      exact ⟨.refl h, n, hn, fun _ hprev => by cases hprev⟩
    · obtain ⟨⟨prev, st1⟩, hfind, hr⟩ := bind_eq_ok.1 hrun
      obtain rfl := pure_eq_ok.1 hr
      obtain ⟨hkeeps, hpoints⟩ := (hload st _ _ h hfind).returned
      exact ⟨hkeeps, n, hn, hpoints⟩

theorem getPrevNodeFromBlock_spec (h : Inv env headers st)
    (hrun : getPrevNodeFromBlock env load st hash = .ok found) :
    Keeps env headers st found.2 ∧ ∀ prev, found.1 = some prev → Points env found.2 prev hash := by
  unfold getPrevNodeFromBlock at hrun
  split_ifs at hrun
  · obtain rfl := pure_eq_ok.1 hrun
    exact ⟨.refl h, fun _ hprev => by cases hprev⟩
  · obtain ⟨⟨prev, st1⟩, hfind, hr⟩ := bind_eq_ok.1 hrun
    obtain rfl := pure_eq_ok.1 hr
    exact (findNode_spec hload h hfind).returned
  · cases hindex : st.index hash with
    | some prev =>
      simp only [hindex] at hrun
      obtain rfl := pure_eq_ok.1 hrun
      exact ⟨.refl h, fun _ hprev => Option.some.inj hprev ▸ h.index hash prev hindex⟩
    | none =>
      simp only [hindex] at hrun
      obtain ⟨⟨prev, st1⟩, hfind, hr⟩ := bind_eq_ok.1 hrun
      obtain rfl := pure_eq_ok.1 hr
      exact (hload st _ _ h hfind).returned

/-! ## Pruning -/

/-- Loading ancestors only adds nodes. -/
theorem loadAncestors_spec {steps : ℕ} {prev : Option ℕ} (h : Inv env headers st)
    (hrun : loadAncestors env load steps st prev = .ok st') : Keeps env headers st st' := by
  induction steps generalizing st prev with
  | zero => exact pure_eq_ok.1 hrun ▸ .refl h
  | succ steps ih =>
    cases prev with
    | none => exact pure_eq_ok.1 hrun ▸ .refl h
    | some id =>
      obtain ⟨found, hfound, hrun⟩ := bind_eq_ok.1 hrun
      obtain ⟨hinv, hgrows⟩ := (getPrevNodeFromNode_spec hload h hfound).1
      obtain ⟨hinv', hgrows'⟩ := ih hinv hrun
      exact ⟨hinv', hgrows.trans hgrows'⟩

theorem prevKeyLoop_spec {steps : ℕ} (h : Inv env headers st)
    (hrun : prevKeyLoop env load steps st id = .ok r) : Keeps env headers st r.2 := by
  induction steps generalizing st id with
  | zero => cases hrun
  | succ steps ih =>
    obtain ⟨⟨prev, st1⟩, hprev, hrun⟩ := bind_eq_ok.1 hrun
    obtain ⟨⟨hinv, hgrows⟩, -⟩ := getPrevNodeFromNode_spec hload h hprev
    cases prev with
    | none => cases hrun
    | some prev =>
      obtain ⟨n, -, hrun⟩ := bind_eq_ok.1 hrun
      split_ifs at hrun
      · obtain rfl := pure_eq_ok.1 hrun
        exact ⟨hinv, hgrows⟩
      · obtain ⟨hinv', hgrows'⟩ := ih hinv hrun
        exact ⟨hinv', hgrows.trans hgrows'⟩

theorem keyRoot_spec (h : Inv env headers st) (hrun : keyRoot env load st id = .ok found) :
    Keeps env headers st found.2 := by
  obtain ⟨n, -, hrun⟩ := bind_eq_ok.1 hrun
  split_ifs at hrun
  · obtain rfl := pure_eq_ok.1 hrun
    exact .refl h
  · cases hkey : getPrevKeyNodeFromNode env load st id with
    | error e =>
      rw [hkey] at hrun
      cases e <;> cases hrun <;> exact .refl h
    | ok r' =>
      rw [hkey] at hrun
      obtain rfl := pure_eq_ok.1 hrun
      obtain ⟨n, -, hkey⟩ := bind_eq_ok.1 hkey
      split_ifs at hkey
      · obtain rfl := pure_eq_ok.1 hkey
        exact .refl h
      · cases hindex : st.index n.header.prevKeyBlock with
        | some key =>
          simp only [hindex] at hkey
          obtain rfl := pure_eq_ok.1 hkey
          exact .refl h
        | none =>
          simp only [hindex] at hkey
          obtain ⟨⟨key, st1⟩, hloop, hr⟩ := bind_eq_ok.1 hkey
          obtain rfl := pure_eq_ok.1 hr
          exact prevKeyLoop_spec hload h hloop

omit hload in
theorem foldl_update_none {parent : ℕ → Option ℕ} {children : List ℕ} {i p : ℕ}
    (h : (children.foldl (fun parent child => update parent child none) parent) i = some p) :
    parent i = some p := by
  induction children generalizing parent with
  | nil => exact h
  | cons c children ih =>
    have hi : update parent c none i = some p := ih h
    by_cases heq : i = c
    · rw [heq, update_self] at hi
      cases hi
    · rwa [update_of_ne heq] at hi

omit hload in
/-- Removing a node keeps the invariant. -/
theorem removeBlockNode_spec (h : Inv env headers st) (hrun : removeBlockNode env st id = .ok st') :
    Keeps env headers st st' := by
  obtain ⟨n, -, hrun⟩ := bind_eq_ok.1 hrun
  obtain ⟨_, -, hrun⟩ := bind_eq_ok.1 hrun
  obtain rfl := pure_eq_ok.1 hrun
  refine ⟨{ h with
    index := fun k i hi => ?_
    depNodes := fun k i hi => ?_
    parent := fun i p hi => h.parent i p (foldl_update_none hi) }, { Grows.refl st with }⟩
  · simp only [update_apply] at hi
    split_ifs at hi
    exact h.index k i hi
  · simp only [update_apply] at hi
    split_ifs at hi with heq
    · exact heq.symm ▸ h.depNodes _ i (mem_of_mem_eraseP hi)
    · exact h.depNodes k i hi

/-- Pruning keeps the invariant. -/
theorem pruneBlockNodes_spec (h : Inv env headers st)
    (hrun : pruneBlockNodes env load st = .ok st') : Keeps env headers st st' := by
  obtain ⟨root, -, hrun⟩ := bind_eq_ok.1 hrun
  cases root with
  | none =>
    obtain rfl := pure_eq_ok.1 hrun
    exact .refl h
  | some root =>
    obtain ⟨⟨root', st1⟩, hroot, hrun⟩ := bind_eq_ok.1 hrun
    obtain ⟨hinv1, hgrows1⟩ := keyRoot_spec hload h hroot
    cases root' with
    | none =>
      obtain rfl := pure_eq_ok.1 hrun
      exact ⟨hinv1, hgrows1⟩
    | some root' =>
      obtain ⟨deleteNodes, -, hrun⟩ := bind_eq_ok.1 hrun
      exact foldlM_invariant (Keeps env headers st) (fun id _ s s' hs hremove => by
        obtain ⟨hinv, hgrows⟩ := removeBlockNode_spec hs.1 hremove
        exact ⟨hinv, hs.2.trans hgrows⟩) ⟨hinv1, hgrows1⟩ hrun

end

/-! ## Steps -/

section

variable (hh : Headers env headers)

include hh

/-- `connectBlock` keeps the invariant. -/
theorem Inv.connectBlock (hload : Loads env headers load) (h : Inv env headers st)
    (hrun : connectBlock env load st id = .ok st') : Inv env headers st' := by
  obtain ⟨n, hn, hrun⟩ := bind_eq_ok.1 hrun
  obtain ⟨best, -, hrun⟩ := bind_eq_ok.1 hrun
  obtain ⟨_, -, hrun⟩ := bind_eq_ok.1 hrun
  obtain ⟨_, -, hrun⟩ := bind_eq_ok.1 hrun
  obtain ⟨st1, hmedian, hrun⟩ := bind_eq_ok.1 hrun
  obtain rfl := pure_eq_ok.1 hrun
  obtain ⟨h, hgrows⟩ := loadAncestors_spec hload h hmedian
  replace hn := hgrows.node (node_eq_ok.1 hn)
  obtain ⟨hmem, hbranch, -⟩ := h.nodes n (mem_of_getElem? hn)
  have hinv := h.register hn
  refine { hinv with
    blocks := TableSound.update h.blocks ⟨hmem, rfl, hbranch⟩
    genesis := ?_
    best := ⟨n, hn, rfl⟩
    bestWork := fun _ => ⟨n, hn, rfl⟩ }
  by_cases heq : genesisHash env = n.hash env
  · simp only [heq, update_self]
    exact congrArg some (hh.hash_inj hmem hh.genesis_mem heq.symm)
  · simp only [update_of_ne heq]
    exact h.genesis

/-- `disconnectBlock` keeps the invariant. -/
theorem Inv.disconnectBlock (hload : Loads env headers load) (h : Inv env headers st)
    (hrun : disconnectBlock env load st id = .ok st') : Inv env headers st' := by
  obtain ⟨n, hn, hrun⟩ := bind_eq_ok.1 hrun
  obtain ⟨best, -, hrun⟩ := bind_eq_ok.1 hrun
  obtain ⟨_, -, hrun⟩ := bind_eq_ok.1 hrun
  obtain ⟨⟨prev, st1⟩, hprev, hrun⟩ := bind_eq_ok.1 hrun
  obtain ⟨st2, hmedian, hrun⟩ := bind_eq_ok.1 hrun
  rw [node_eq_ok] at hn
  obtain ⟨⟨hinv1, hgrows1⟩, n', hn', hpoints⟩ := getPrevNodeFromNode_spec hload h hprev
  obtain rfl := Option.some.inj (hn.symm.trans hn')
  obtain ⟨hinv, hgrows2⟩ := loadAncestors_spec hload hinv1 hmedian
  have hgrows := hgrows1.trans hgrows2
  cases prev with
  | none => cases hrun
  | some prev =>
    cases hparent : st2.parent id with
    | none => simp [hparent] at hrun
    | some parent =>
      simp only [hparent] at hrun
      obtain ⟨prevNode, hprevNode, hrun⟩ := bind_eq_ok.1 hrun
      obtain rfl := pure_eq_ok.1 hrun
      have hhash : prevNode.hash env = n.header.prevBlock :=
        (hgrows2.points (hpoints prev rfl)).node hprevNode
      obtain ⟨n', hn', p, hp, hphash⟩ := hinv.parent id parent hparent
      obtain rfl := Option.some.inj ((hgrows.node hn).symm.trans hn')
      have hclean : Clean env { st2 with disconnected := st2.disconnected ++ [n.header] } →
          Clean env st2 ∧ blockWork env n.header = 0 := fun hc =>
        ⟨⟨hc.1, fun a ha => hc.2 a (mem_append_left _ ha)⟩, hc.2 n.header (by simp)⟩
      refine { hinv with
        nodes := fun a ha =>
          ⟨(hinv.nodes a ha).1, (hinv.nodes a ha).2.1, fun hc =>
            (hinv.nodes a ha).2.2 (hclean hc).1⟩
        best := ⟨p, hp, hphash.trans hhash.symm⟩
        bestWork := fun hc => ⟨p, hp, ?_⟩ }
      -- the node of a block without work has the work sum of its parent
      obtain ⟨hclean1, hwork⟩ := hclean hc
      obtain ⟨below, hbranch, hsum⟩ := hinv.right hclean1 (hgrows.node hn)
      obtain ⟨belowp, hpbranch, hpsum⟩ := hinv.right hclean1 hp
      obtain ⟨rest, rfl, hrest⟩ := hbranch.parent hh (hpbranch.mem hh) hphash.symm
      rw [hpbranch.unique hh hrest] at hpsum
      show n.workSum = p.workSum
      rw [hsum, hpsum, totalWork_cons n.header, hwork, zero_add]

/-- `maybeAcceptBlock` keeps the invariant. -/
theorem Inv.maybeAcceptBlock
    (hload : Loads env headers load) (h : Inv env headers st) (hmem : header ∈ headers)
    {prune : Bool}
    (hrun : maybeAcceptBlock env load st header prune = .ok st') : Inv env headers st' := by
  obtain ⟨_, -, hrun⟩ := bind_eq_ok.1 hrun
  obtain ⟨⟨prev, st1⟩, hprev, hrun⟩ := bind_eq_ok.1 hrun
  obtain ⟨⟨hinv1, hgrows1⟩, hpoints1⟩ := getPrevNodeFromBlock_spec hload h hprev
  cases prev with
  | none => cases hrun
  | some prev =>
    obtain ⟨st2, hprune, hrun⟩ := bind_eq_ok.1 hrun
    obtain ⟨hinv2, hgrows2⟩ : Keeps env headers st1 st2 := by
      cases prune with
      | true => exact pruneBlockNodes_spec hload hinv1 hprune
      | false =>
        obtain rfl := pure_eq_ok.1 hprune
        exact .refl hinv1
    obtain ⟨p, hp, hrun⟩ := bind_eq_ok.1 hrun
    obtain ⟨best, hbest, hrun⟩ := bind_eq_ok.1 hrun
    have hpoints : Points env st2 prev header.prevBlock := hgrows2.points (hpoints1 prev rfl)
    have hhash := hpoints.node hp
    obtain ⟨-, ⟨below, hbelow⟩, hpright⟩ := hinv2.nodes p (mem_of_getElem? (node_eq_ok.1 hp))
    obtain ⟨hinv3, hgrows3, hnew⟩ := hinv2.alloc hmem ⟨_, hbelow.child hmem hhash.symm⟩
      fun hclean => (hpright hclean).child hmem hhash.symm
    have hinv4 := hinv3.setParent hnew (hgrows3.points hpoints)
    split_ifs at hrun
    · obtain ⟨st5, hconnect, hrun⟩ := bind_eq_ok.1 hrun
      obtain rfl := pure_eq_ok.1 hrun
      exact (hinv4.connectBlock hh hload hconnect).addChild _ _
    · obtain rfl := pure_eq_ok.1 hrun
      refine Inv.addChild ?_ _ _
      exact { hinv4 with index := TableSound.update hinv4.index ⟨_, hnew, rfl⟩ }

/-- A restart keeps the invariant. -/
theorem Inv.initChainState (hload : Loads env headers load) (h : Inv env headers st)
    (hrun : initChainState env load st = .ok st') : Inv env headers st' := by
  unfold Index.initChainState at hrun
  cases hblock : st.blocks st.bestState.1 with
  | none => simp [hblock] at hrun
  | some header =>
    simp only [hblock] at hrun
    obtain ⟨hmem, hhash, hbranch⟩ := h.blocks _ header hblock
    refine (loadAncestors_spec hload ?_ hrun).1
    refine ⟨fun n hn => ?_, TableSound.update tableSound_empty ⟨_, rfl, rfl⟩, fun k i hi => ?_,
      fun _ _ hi => (nomatch hi), h.blocks, h.genesis, ⟨_, rfl, hhash⟩, fun _ => ⟨_, rfl, rfl⟩⟩
    · rw [mem_singleton.1 hn]
      refine ⟨hmem, hbranch, fun hclean => ?_⟩
      -- the best state has the work sum of the node that was the best one
      obtain ⟨n', hn', hbest, hright⟩ := (h.consistent hclean).best
      rw [hbest] at hhash ⊢
      rwa [← hh.hash_inj (h.nodes n' (mem_of_getElem? hn')).1 hmem hhash.symm]
    · simp only [update_apply] at hi
      split_ifs at hi with heq
      · rw [mem_singleton.1 hi]
        exact ⟨_, rfl, heq.symm⟩
      · cases hi

/-- The first state. -/
theorem Inv.createChainState : Inv env headers (createChainState env) := by
  have hbranch : ∃ below, Branch env headers (env.params.genesisBlock.header :: below) :=
    ⟨[], .genesis⟩
  have hright : Right env headers env.params.genesisBlock.header
      (blockWork env env.params.genesisBlock.header) := by
    refine ⟨[], .genesis, ?_⟩
    rw [totalWork_cons]
    simp [totalWork]
  refine ⟨fun n hn => ?_, TableSound.update tableSound_empty ⟨_, rfl, rfl⟩, fun _ _ hi =>
    (nomatch hi),
    fun _ _ hi => (nomatch hi), TableSound.update tableSound_empty ⟨hh.genesis_mem, rfl, hbranch⟩,
    by simp [Index.createChainState], ⟨_, rfl, rfl⟩, fun _ => ⟨_, rfl, rfl⟩⟩
  rw [mem_singleton.1 hn]
  exact ⟨hh.genesis_mem, hbranch, fun _ => hright⟩

end

variable {fuel : ℕ}

/-- Every run keeps the invariant. -/
theorem Run.inv (hh : Headers env headers) (hrun : Run env headers fuel st) :
    Inv env headers st := by
  induction hrun with
  | create => exact Inv.createChainState hh
  | @step st st' op _ hheader hstep ih =>
    have hload := loadBlockNode_spec hh fuel
    cases op with
    | accept header prune => exact ih.maybeAcceptBlock hh hload (hheader header prune rfl) hstep
    | connect id => exact ih.connectBlock hh hload hstep
    | disconnect id => exact ih.disconnectBlock hh hload hstep
    | prune => exact (pruneBlockNodes_spec hload ih hstep).1
    | remove id => exact (removeBlockNode_spec ih hstep).1
    | load hash =>
      obtain ⟨⟨id, st1⟩, hrun, hr⟩ := bind_eq_ok.1 hstep
      obtain rfl := pure_eq_ok.1 hr
      exact (hload st hash _ ih hrun).1
    | restart => exact ih.initChainState hh hload hstep

theorem Run.foldlM {ops : List Op} (hrun : Run env headers fuel st)
    (hheaders : ∀ header prune, Op.accept header prune ∈ ops → header ∈ headers)
    (hsteps : ops.foldlM (Index.step env fuel) st = .ok st') : Run env headers fuel st' := by
  induction ops generalizing st with
  | nil => exact pure_eq_ok.1 hsteps ▸ hrun
  | cons op ops ih =>
    obtain ⟨st1, hstep, hsteps⟩ := bind_eq_ok.1 ((foldlM_cons ..).symm.trans hsteps)
    have hrun1 :=
      hrun.step op (fun header prune hop => hheaders header prune (hop ▸ mem_cons_self)) hstep
    exact ih hrun1 (fun header prune hmem => hheaders header prune (mem_cons_of_mem _ hmem)) hsteps

/-- Cumulative work is consistent in every run in which no node was reloaded from a child of other
work and no block with work was disconnected. -/
theorem workSum_consistent (hh : Headers env headers) (hrun : Run env headers fuel st)
    (hloaded : ∀ x ∈ st.loadedByChild, blockWork env x.1 = blockWork env x.2)
    (hdisconnected : ∀ h ∈ st.disconnected, blockWork env h = 0) : Consistent env headers st :=
  (hrun.inv hh).consistent ⟨hloaded, hdisconnected⟩

/-! ## A chain of two key blocks with a micro block each -/

/-- A network whose genesis block is a key block. -/
def workEnv : Env := sampleEnv { sampleParams with
  genesisBlock := ⟨sampleHeader 0 0 3 20000 20000, [], []⟩ }

/-- The genesis block of this network. -/
def genesisHeader : BlockHeader := workEnv.params.genesisBlock.header

/-- The first key block. -/
def keyOne : BlockHeader := sampleHeader 1 1 1 3 3

/-- A micro block on the first key block. -/
def microOne : BlockHeader := sampleHeader 2 1 101 1 1

/-- The second key block, on the first one. -/
def keyTwo : BlockHeader := sampleHeader 2 2 2 1 1

/-- A micro block on the second key block. -/
def microTwo : BlockHeader := sampleHeader 3 2 102 2 2

/-- The headers of the chain. -/
def shortChain : Set BlockHeader :=
  { h | h ∈ [genesisHeader, keyOne, microOne, keyTwo, microTwo] }

/-- The sample headers are a chain. -/
theorem headers_shortChain : Headers workEnv shortChain where
  genesis_mem := mem_cons_self
  hash_inj := by
    intro a ha b hb
    revert a b
    simp only [shortChain, Set.mem_ofPred_eq]
    decide +kernel
  orphan := by
    simp only [shortChain, Set.mem_ofPred_eq]
    decide +kernel

/-- The second key block is the best one after a restart, which reloads the first one and the
genesis block, and a micro block comes and goes. -/
def cleanSteps : List Op :=
  [.accept keyOne false, .accept keyTwo false, .restart, .accept microTwo false, .disconnect 3]

/-- The best block is a micro block, and a restart reloads its key block from it. -/
def reloadSteps : List Op := [.accept keyOne false, .accept microOne false, .restart]

/-- A key block comes and goes. -/
def disconnectSteps : List Op := [.accept keyOne false, .disconnect 1]

/-- A run with loads and a disconnected block. -/
theorem workSum_consistent_cleanSteps : ∃ st,
    cleanSteps.foldlM (step workEnv 2) (createChainState workEnv) = .ok st ∧
      st.loadedByChild = [(keyOne, keyTwo), (genesisHeader, keyOne)] ∧
      st.disconnected = [microTwo] ∧
      Consistent workEnv shortChain st := by
  have hsteps : ∃ st, cleanSteps.foldlM (step workEnv 2)
      (createChainState workEnv) = .ok st ∧
        st.loadedByChild = [(keyOne, keyTwo), (genesisHeader, keyOne)] ∧
        st.disconnected = [microTwo] := by decide +kernel
  obtain ⟨st, hrun, hloaded, hdisconnected⟩ := hsteps
  refine ⟨st, hrun, hloaded, hdisconnected,
    workSum_consistent headers_shortChain (Run.create.foldlM ?_ hrun) ?_ ?_⟩
  · simp [cleanSteps, shortChain]
  · rw [hloaded]
    decide +kernel
  · rw [hdisconnected]
    decide +kernel

/-- A key block that is reloaded from a micro block has a wrong work sum, and so has the best state
after a key block was disconnected. -/
theorem exists_workSum_ne : (∃ st, Run workEnv shortChain 2 st ∧ st.disconnected = [] ∧
      ¬ Consistent workEnv shortChain st) ∧
    ∃ st, Run workEnv shortChain 2 st ∧ st.loadedByChild = [] ∧
      ¬ Consistent workEnv shortChain st := by
  constructor
  · have hsteps : ∃ st, reloadSteps.foldlM (step workEnv 2)
        (createChainState workEnv) = .ok st ∧ st.disconnected = [] ∧
          st.index (workEnv.blockHash keyOne) = some 1 ∧
          (st.nodes[1]?.map WorkNode.header) = some keyOne ∧
          (st.nodes[1]?.map WorkNode.workSum) ≠
            some (totalWork workEnv [keyOne, genesisHeader]) := by
      decide +kernel
    obtain ⟨st, hrun, hdisconnected, hindex, hheader, hne⟩ := hsteps
    refine ⟨st, Run.create.foldlM (by simp [reloadSteps, shortChain]) hrun, hdisconnected,
      fun hc => ?_⟩
    obtain ⟨n, hn, -, below, hbranch, hsum⟩ := hc.index _ _ hindex
    rw [hn, Option.map_some, Option.some.injEq] at hheader
    rw [hn, Option.map_some, hsum] at hne
    rw [hheader] at hbranch hne
    have hkeyOne : Branch workEnv shortChain [keyOne, genesisHeader] :=
      .child (by simp [shortChain]) rfl .genesis
    rw [hbranch.unique headers_shortChain hkeyOne] at hne
    exact hne rfl
  · have hsteps : ∃ st, disconnectSteps.foldlM (step workEnv 2)
        (createChainState workEnv) = .ok st ∧ st.loadedByChild = [] ∧
          (st.nodes[st.bestNode]?.map WorkNode.workSum) ≠ some st.bestState.2 := by decide +kernel
    obtain ⟨st, hrun, hloaded, hne⟩ := hsteps
    refine ⟨st, Run.create.foldlM (by simp [disconnectSteps, shortChain]) hrun, hloaded,
      fun hc => ?_⟩
    obtain ⟨n, hn, hbest, -⟩ := hc.best
    rw [hn, hbest] at hne
    exact hne rfl

end Hcashd.Blockchain.Index
