import Hcashd.Blockchain.Chain
import Hcashd.Blockchain.StakeNode
import Hcashd.Stake.Pool

/-!
# Fetching stake nodes

When the caches of a block tree are sound, `fetchStakeNode` returns the stake node that connecting
all blocks of a branch leads to, from whatever is cached (`fetchStakeNode_iff` with its condition
`Fetchable`). The walk is followed in its two loops: the blocks of the main chain are undone one by
one (`detachLoop_spec`), each by what is cached or stored for its parent, and the blocks above the
fork are connected (`attachLoop_spec`).
-/

namespace Hcashd.Blockchain.Tree

open Lib Stake List Option Function

section Spec

variable (env : Env) (store : Chain) (db : TicketDB)

/-- `ConnectNode` for a block node, with the new tickets that belong to it. -/
def connectTreeNode (s : Stake.Node) (n : TreeNode) : Except Err Stake.Node := do
  let newTickets ← newTicketsOf env store n
  connectNode env.hashH env.params env.lotteryFuel s n.header n.ticketsSpent n.ticketsRevoked
    (some newTickets) n.isKeyBlock

/-- The stake node of a branch: `ConnectNode` folded from the genesis block on. -/
def stakeNodeOf : List TreeNode → Except Err Stake.Node
  | [] => pure genesisNode
  | [_] => pure genesisNode
  | n :: parent :: below => do
    let s ← stakeNodeOf (parent :: below)
    connectTreeNode env store s n

/-- The tickets that were added on a branch. -/
def seenTickets : List TreeNode → List Hash
  | [] => []
  | [_] => []
  | n :: parent :: below =>
    seenTickets (parent :: below) ++ (newTicketsOf env store n).toOption.getD []

/-- What is cached for a node is right. -/
structure CorrectAt (m : Memory) (n : TreeNode) (below : List TreeNode) : Prop where
  stakeNode : ∀ s, (m n.hash).stakeNode = some s → stakeNodeOf env store (n :: below) = .ok s
  newTickets : ∀ newTickets, (m n.hash).newTickets = some newTickets →
    newTicketsOf env store n = .ok newTickets
  stakeUndoData : ∀ undo, (m n.hash).stakeUndoData = some undo →
    ∃ s, stakeNodeOf env store (n :: below) = .ok s ∧ s.databaseUndoUpdate = undo

/-- A block tree with its main chain: every node by its branch. -/
structure BlockTree (tree : Set (List TreeNode)) (main : List TreeNode) : Prop where
  parent : ∀ n parent below, n :: parent :: below ∈ tree → parent :: below ∈ tree
  hash_inj : ∀ n below n' below', n :: below ∈ tree → n' :: below' ∈ tree → n.hash = n'.hash →
    n :: below = n' :: below'
  mem_main : main ∈ tree
  genesis : ∀ n, [n] ∈ tree → [n] <:+ main
  inMainChain : ∀ n below, n :: below ∈ tree → (n.inMainChain = true ↔ n :: below <:+ main)

/-- The blocks of the main chain were connected with well-formed inputs. -/
def WellFormedChain (main : List TreeNode) : Prop :=
  ∀ n parent below s newTickets, n :: parent :: below <:+ main →
    stakeNodeOf env store (parent :: below) = .ok s → newTicketsOf env store n = .ok newTickets →
    WellFormed s parent.header parent.isKeyBlock (seenTickets env store (parent :: below)) n.header
      n.ticketsRevoked newTickets

/-- The database has the undo data and the new tickets of the main chain, by height. -/
def StoredChain (main : List TreeNode) : Prop :=
  ∀ n below s, n :: below <:+ main → stakeNodeOf env store (n :: below) = .ok s →
    db.dbFetchBlockUndoData s.height = .ok s.databaseUndoUpdate ∧
      db.dbFetchNewTickets s.height = .ok (s.databaseBlockTickets.getD [])

/-- What is cached for the nodes of a tree is right. -/
def Correct (m : Memory) (tree : Set (List TreeNode)) : Prop :=
  ∀ n below, n :: below ∈ tree → CorrectAt env store m n below

/-- The caches of a tree: what is there is right, and the best node has its stake node. -/
structure Sound (m : Memory) (tree : Set (List TreeNode)) (main : List TreeNode) : Prop where
  correct : Correct env store m tree
  best : ∀ n below, n :: below = main → ∃ s, (m n.hash).stakeNode = some s

end Spec

variable {env : Env} {store : Chain} {db : TicketDB} {m m' : Memory} {tree : Set (List TreeNode)}
  {main : List TreeNode} {n fork : TreeNode} {below above side : List TreeNode} {s : Stake.Node}

/-! ## Branches of a tree -/

variable {branch rest : List TreeNode} {distance : ℕ} {s' : Stake.Node} {a n : TreeNode}

/-- Ancestors are in the tree. -/
theorem BlockTree.suffix_mem (ht : BlockTree tree main)
    (hbranch : branch ∈ tree) (h : n :: below <:+ branch) : n :: below ∈ tree := by
  induction branch with
  | nil => simp at h
  | cons a branch ih =>
    rcases suffix_cons_iff.1 h with h | h
    · exact h ▸ hbranch
    · cases branch with
      | nil => simp at h
      | cons b branch => exact ih (ht.parent a b branch hbranch) h

/-- Blocks of one branch have different hashes. -/
theorem BlockTree.hash_ne (ht : BlockTree tree main) (h : above ++ n :: below ∈ tree)
    (ha : a ∈ above) : a.hash ≠ n.hash := by
  obtain ⟨pre, post, rfl⟩ := append_of_mem ha
  intro heq
  have hlong : a :: (post ++ n :: below) ∈ tree := ht.suffix_mem h ⟨pre, by simp⟩
  have hshort : n :: below ∈ tree := ht.suffix_mem h ⟨pre ++ a :: post, by simp⟩
  have hsame := congrArg length (ht.hash_inj _ _ _ _ hlong hshort heq)
  simp at hsame
  omega

theorem BlockTree.hash_nodup (ht : BlockTree tree main) (h : above ++ n :: below ∈ tree) :
    (above.map fun a => a.hash).Nodup := by
  induction above with
  | nil => exact nodup_nil
  | cons a above ih =>
    rw [map_cons, nodup_cons]
    refine ⟨fun hmem => ?_, ?_⟩
    · obtain ⟨b, hb, heq⟩ := mem_map.1 hmem
      obtain ⟨pre, post, rfl⟩ := append_of_mem hb
      have hsplit : (a :: pre) ++ b :: (post ++ n :: below) ∈ tree := by simpa using h
      exact ht.hash_ne hsplit mem_cons_self heq.symm
    · cases habove : above ++ n :: below with
      | nil => simp at habove
      | cons b rest =>
        rw [cons_append, habove] at h
        exact ih (habove ▸ ht.parent a b rest h)

/-! ## `getReorganizeNodes` -/

/-- The way to the fork, where every node is linked. -/
theorem findFork_eq {rest attach : List TreeNode}
    (h : n :: rest = side ++ fork :: below) (hside : ∀ a ∈ side, a.inMainChain = false)
    (hlinked : ∀ a ∈ side, (m a.hash).hasParent = true) (hfork : fork.inMainChain = true) :
    findFork m n rest attach = (fork.hash, side.reverse ++ attach) := by
  induction side generalizing n rest attach with
  | nil =>
    obtain ⟨rfl, rfl⟩ := cons.inj h
    cases rest <;> simp [findFork, hfork]
  | cons a side ih =>
    obtain ⟨rfl, hrest⟩ := cons.inj h
    have hn : ¬ ((m n.hash).hasParent = false ∨ n.inMainChain = true) := by
      simp [hside n (by simp), hlinked n (by simp)]
    cases rest with
    | nil => simp at hrest
    | cons parent rest =>
      rw [findFork, if_neg hn, ih hrest (fun b hb => hside b (mem_cons_of_mem _ hb))
        (fun b hb => hlinked b (mem_cons_of_mem _ hb))]
      simp

/-- The way to the fork ends at the first node off the main chain that is not linked. -/
theorem findFork_of_unlinked {rest : List TreeNode} (attach : List TreeNode)
    (h : n :: rest = side ++ fork :: below)
    (hside : ∀ a ∈ side, a.inMainChain = false)
    (hlinks : ¬ ∀ a ∈ side, (m a.hash).hasParent = true) :
    ∃ a ∈ side, (findFork m n rest attach).1 = a.hash := by
  induction side generalizing n rest attach with
  | nil => simp at hlinks
  | cons a side ih =>
    obtain ⟨rfl, hrest⟩ := cons.inj h
    cases rest with
    | nil => simp at hrest
    | cons parent rest =>
      rw [findFork]
      split_ifs with hstop
      · exact ⟨n, mem_cons_self, rfl⟩
      · rw [not_or, Bool.not_eq_false] at hstop
        obtain ⟨b, hb, heq⟩ := ih (n :: attach) hrest
          (fun b hb => hside b (mem_cons_of_mem _ hb))
          (fun hall => hlinks (forall_mem_cons.2 ⟨hstop.1, hall⟩))
        exact ⟨b, mem_cons_of_mem _ hb, heq⟩

/-- The parents of the nodes to detach are linked, or near enough for `findNode`, which looks for
the first one `distance` nodes below the best. -/
def LinksFound (m : Memory) (below : List TreeNode) : ℕ → List TreeNode → Prop
  | _, [] => True
  | distance, n :: detach =>
    ((m n.hash).hasParent = true ∨ distance < maxSearchDepth ∨ detach = [] ∧ below = []) ∧
      LinksFound m below (distance + 1) detach

/-- Only the links of the nodes to detach matter. -/
theorem LinksFound.congr {detach : List TreeNode}
    (h : ∀ a ∈ detach, (m' a.hash).hasParent = (m a.hash).hasParent) :
    LinksFound m' below distance detach ↔ LinksFound m below distance detach := by
  induction detach generalizing distance with
  | nil => rfl
  | cons a detach ih =>
    obtain ⟨ha, h⟩ := forall_mem_cons.1 h
    rw [LinksFound, LinksFound, ha, ih h]

/-- The memory after links were set. -/
structure SameCaches (m m' : Memory) : Prop where
  stakeNode : ∀ hash, (m' hash).stakeNode = (m hash).stakeNode
  newTickets : ∀ hash, (m' hash).newTickets = (m hash).newTickets
  stakeUndoData : ∀ hash, (m' hash).stakeUndoData = (m hash).stakeUndoData
  hasParent : ∀ hash, (m hash).hasParent = true → (m' hash).hasParent = true

/-- Two steps that keep the caches. -/
theorem SameCaches.trans {m1 m2 m3 : Memory} (h : SameCaches m1 m2) (h' : SameCaches m2 m3) :
    SameCaches m1 m3 :=
  ⟨fun k => (h'.stakeNode k).trans (h.stakeNode k), fun k =>
    (h'.newTickets k).trans (h.newTickets k),
    fun k => (h'.stakeUndoData k).trans (h.stakeUndoData k),
    fun k hk => h'.hasParent k (h.hasParent k hk)⟩

/-- Links are no caches. -/
theorem SameCaches.setParent (m : Memory) (hash : Hash) : SameCaches m (m.setParent hash) := by
  refine ⟨fun k => ?_, fun k => ?_, fun k => ?_, fun k hk => ?_⟩ <;>
    by_cases h : k = hash <;> simp_all [Memory.setParent]

/-- The nodes that are detached, and the links that are set. -/
theorem findDetach_spec {rest detach : List TreeNode}
    (h : n :: rest = above ++ fork :: below) (habove : ∀ a ∈ above, a.hash ≠ fork.hash)
    (hrun : findDetach fork.hash m distance n rest = .ok (detach, m')) :
    detach = above ∧ SameCaches m m' ∧ (∀ a ∈ above, (m' a.hash).hasParent = true) ∧
    (above = [] → m' = m) := by
  induction above generalizing n rest detach distance m with
  | nil =>
    obtain ⟨rfl, rfl⟩ := cons.inj h
    have hstop : [] = detach ∧ m = m' := by
      cases rest <;> simpa [findDetach] using hrun
    obtain ⟨rfl, rfl⟩ := hstop
    exact ⟨rfl, ⟨fun _ => rfl, fun _ => rfl, fun _ => rfl, fun _ hk => hk⟩, by simp, fun _ => rfl⟩
  | cons a above ih =>
    obtain ⟨rfl, hrest⟩ := cons.inj h
    have hne : n.hash ≠ fork.hash := habove n (by simp)
    cases rest with
    | nil => simp at hrest
    | cons parent rest =>
      rw [findDetach, if_neg hne] at hrun
      simp only [bind_eq_ok, Prod.exists, pure_eq_ok, Prod.mk.injEq] at hrun
      obtain ⟨-, -, detach', m'', hrun, rfl, rfl⟩ := hrun
      obtain ⟨rfl, hsame, hparents, -⟩ :=
        ih hrest (fun b hb => habove b (mem_cons_of_mem _ hb)) hrun
      refine ⟨rfl, (SameCaches.setParent m n.hash).trans hsame, fun b hb => ?_, by simp⟩
      rcases mem_cons.1 hb with rfl | hb
      · exact hsame.hasParent _ (by simp [Memory.setParent])
      · exact hparents b hb

/-- A hash that is not on the main chain is not found there. -/
theorem findDetach_ne_ok {hash : Hash} {rest : List TreeNode} {r : List TreeNode × Memory}
    (h : ∀ a ∈ n :: rest, a.hash ≠ hash) : findDetach hash m distance n rest ≠ .ok r := by
  induction rest generalizing n distance m r with
  | nil => simp [findDetach, h n mem_cons_self]
  | cons parent rest ih =>
    intro hrun
    rw [findDetach, if_neg (h n mem_cons_self)] at hrun
    obtain ⟨_, -, hrun⟩ := bind_eq_ok.1 hrun
    obtain ⟨_, hrun, -⟩ := bind_eq_ok.1 hrun
    exact ih (fun a ha => h a (mem_cons_of_mem _ ha)) hrun

/-- The walk to the fork succeeds iff the links are found. -/
theorem findDetach_isOk (h : n :: rest = above ++ fork :: below)
    (habove : ∀ a ∈ above, a.hash ≠ fork.hash)
    (hdistinct : (above.map fun a => a.hash).Nodup) :
    (∃ r, findDetach fork.hash m distance n rest = .ok r) ↔ LinksFound m below distance above := by
  induction above generalizing n rest distance m with
  | nil =>
    obtain ⟨rfl, rfl⟩ := cons.inj h
    refine iff_of_true ?_ trivial
    cases rest <;> exact ⟨([], m), by simp [findDetach]⟩
  | cons a above ih =>
    obtain ⟨rfl, hrest⟩ := cons.inj h
    obtain ⟨hn, hdistinct⟩ := nodup_cons.1 hdistinct
    have hne : n.hash ≠ fork.hash := habove n (by simp)
    cases rest with
    | nil => simp at hrest
    | cons parent rest =>
      have hlast : rest = [] ↔ above = [] ∧ below = [] := by
        cases above with
        | nil | cons =>
          obtain ⟨-, rfl⟩ := cons.inj hrest
          simp
      have hfar : ¬ ((m n.hash).hasParent = false ∧ maxSearchDepth ≤ distance ∧ rest ≠ []) ↔
          (m n.hash).hasParent = true ∨ distance < maxSearchDepth ∨ above = [] ∧ below = [] := by
        rw [← hlast, not_and_or, not_and_or, not_not, Bool.not_eq_false, not_le]
      have hlinks : LinksFound (m.setParent n.hash) below (distance + 1) above ↔
          LinksFound m below (distance + 1) above := by
        refine LinksFound.congr fun b hb => ?_
        have hbn : b.hash ≠ n.hash := fun heq => hn (mem_map.2 ⟨b, hb, heq⟩)
        rw [Memory.setParent, update_of_ne hbn]
      rw [LinksFound, ← hfar, ← hlinks,
        ← ih hrest (fun b hb => habove b (mem_cons_of_mem _ hb)) hdistinct, findDetach, if_neg hne]
      simp only [bind_eq_ok, rejectIf_eq_ok, Prod.exists, pure_eq_ok, exists_const, exists_and_left]
      refine and_congr_right fun _ => ⟨?_, ?_⟩
      · rintro ⟨_, _, d, m'', hrun, -⟩
        exact ⟨d, m'', hrun⟩
      · rintro ⟨d, m'', hrun⟩
        exact ⟨n :: d, m'', d, m'', hrun, rfl⟩

/-! ## Undoing the main chain -/

theorem WellFormedChain.nodeInv (hwf : WellFormedChain env store main) (h : n :: below <:+ main)
    (hs : stakeNodeOf env store (n :: below) = .ok s) :
    NodeInv env.hashH env.params env.lotteryFuel s n.header n.isKeyBlock
      (seenTickets env store (n :: below)) := by
  induction below generalizing n s with
  | nil =>
    obtain rfl := pure_eq_ok.1 hs
    exact NodeInv.genesisNode _ _
  | cons parent below ih =>
    obtain ⟨s', hs', hconnect⟩ := bind_eq_ok.1 hs
    obtain ⟨newTickets, hnew, hconnect⟩ := bind_eq_ok.1 hconnect
    rw [seenTickets, hnew]
    exact (ih ((suffix_cons _ _).trans h) hs').connect
      (hwf n parent below s' newTickets h hs' hnew) hconnect

/-- A stake node has the height of its block. -/
theorem stakeNodeOf_height (hs : stakeNodeOf env store (n :: below) = .ok s) :
    s.height = below.length := by
  induction below generalizing n s with
  | nil =>
    obtain rfl := pure_eq_ok.1 hs
    rfl
  | cons parent below ih =>
    obtain ⟨s', hs', hconnect⟩ := bind_eq_ok.1 hs
    obtain ⟨newTickets, -, hconnect⟩ := bind_eq_ok.1 hconnect
    rw [connectNode_height hconnect, ih hs', length_cons]

/-- The node of a block on the main chain has a list of new tickets. -/
theorem WellFormedChain.stored (hwf : WellFormedChain env store main) (h : n :: below <:+ main)
    (hs : stakeNodeOf env store (n :: below) = .ok s) : s.stored = s := by
  refine Node.stored_eq_self_iff.2 ?_
  cases below with
  | nil =>
    obtain rfl := pure_eq_ok.1 hs
    simp [genesisNode]
  | cons parent below =>
    obtain ⟨s', hs', hconnect⟩ := bind_eq_ok.1 hs
    obtain ⟨newTickets, hnew, hconnect⟩ := bind_eq_ok.1 hconnect
    have hparent := hwf.nodeInv ((suffix_cons _ _).trans h) hs'
    rw [hparent.databaseBlockTickets (hwf n parent below s' newTickets h hs' hnew) hconnect]
    simp

theorem CorrectAt.congr (h : CorrectAt env store m n below) (hsame : m' n.hash = m n.hash) :
    CorrectAt env store m' n below :=
  ⟨hsame ▸ h.stakeNode, hsame ▸ h.newTickets, hsame ▸ h.stakeUndoData⟩

/-- A correct entry for one node keeps the others correct. -/
theorem CorrectAt.update (ht : BlockTree tree main) (hn : n :: below ∈ tree) {cache : NodeCache}
    (hcache : CorrectAt env store (update m n.hash cache) n below)
    (ha : a :: rest ∈ tree) (h : CorrectAt env store m a rest) :
    CorrectAt env store (update m n.hash cache) a rest := by
  by_cases hash : a.hash = n.hash
  · obtain ⟨rfl, rfl⟩ := cons.inj (ht.hash_inj _ _ _ _ ha hn hash)
    exact hcache
  · exact h.congr (update_of_ne hash _ _)

theorem CorrectAt.of_sameCaches (h : CorrectAt env store m n below) (hsame : SameCaches m m') :
    CorrectAt env store m' n below :=
  ⟨fun s hs => h.stakeNode s (hsame.stakeNode _ ▸ hs), fun t ht =>
    h.newTickets t (hsame.newTickets _ ▸ ht),
    fun u hu => h.stakeUndoData u (hsame.stakeUndoData _ ▸ hu)⟩

/-- The data of the parent are those of the database. -/
theorem parentData_of_correct (hwf : WellFormedChain env store main)
    (hdb : StoredChain env store db main) (hbranch : n :: below <:+ main)
    (hs : stakeNodeOf env store (n :: below) = .ok s) (hcorrect : CorrectAt env store m n below)
    {child : Stake.Node} (hchild : child.height = s.height + 1) :
    ParentData s child (m n.hash).stakeUndoData (m n.hash).newTickets (some db) := by
  intro hheight
  obtain ⟨hundo, hnew⟩ := hdb n below s hbranch hs
  have hread : (do
      let utds ← db.dbFetchBlockUndoData (child.height - 1)
      let tickets ← db.dbFetchNewTickets (child.height - 1)
      pure (utds, tickets)) = .ok (s.databaseUndoUpdate, s.databaseBlockTickets.getD []) := by
    rw [hchild, Nat.add_sub_cancel, hundo, hnew]
    rfl
  unfold fetchParentData
  cases hu : (m n.hash).stakeUndoData with
  | none => exact hread
  | some utds =>
    cases hk : (m n.hash).newTickets with
    | none => exact hread
    | some tickets =>
      obtain ⟨s', hs', hutds⟩ := hcorrect.stakeUndoData utds hu
      obtain rfl := Except.ok.inj (hs.symm.trans hs')
      have htickets : s.databaseBlockTickets = some tickets := by
        cases below with
        | nil =>
          obtain rfl := pure_eq_ok.1 hs
          exact absurd rfl hheight
        | cons parent below =>
          obtain ⟨s', hs', hconnect⟩ := bind_eq_ok.1 hs
          obtain ⟨newTickets, hnew, hconnect⟩ := bind_eq_ok.1 hconnect
          obtain rfl := Except.ok.inj (hnew.symm.trans (hcorrect.newTickets tickets hk))
          have hparent := (suffix_cons n _).trans hbranch
          exact (hwf.nodeInv hparent hs').databaseBlockTickets
            (hwf n parent below s' newTickets hbranch hs' hnew) hconnect
      simp [hutds, htickets]

section Detach

variable (hp : env.params.stakeEnabledHeight + 1 ≤ env.params.stakeValidationHeight)
  (ht : BlockTree tree main)
  (hwf : WellFormedChain env store main) (hdb : StoredChain env store db main) {c : TreeNode}

include hp ht hwf hdb

/-- One block down: the node of the parent, cached. -/
theorem detachStakeNode_spec (hbranch : c :: n :: below <:+ main)
    (hs : stakeNodeOf env store (c :: n :: below) = .ok s) (hcorrect : Correct env store m tree) :
    ∃ s' m', detachStakeNode env db c s m n = .ok (s', m') ∧
    stakeNodeOf env store (n :: below) = .ok s' ∧
      Correct env store m' tree ∧ (∀ hash, (m' hash).hasParent = (m hash).hasParent) ∧
        ∀ hash, hash ≠ n.hash → m' hash = m hash := by
  have hparent : n :: below <:+ main := (suffix_cons c _).trans hbranch
  have hmem := ht.suffix_mem ht.mem_main hparent
  obtain ⟨s', hs', hconnect⟩ := bind_eq_ok.1 hs
  obtain ⟨newTickets, hnew, hconnect⟩ := bind_eq_ok.1 hconnect
  unfold detachStakeNode
  cases hcached : (m n.hash).stakeNode with
  | some s'' =>
    obtain rfl := Except.ok.inj (hs'.symm.trans ((hcorrect n below hmem).stakeNode s'' hcached))
    exact ⟨s', m, rfl, hs', hcorrect, fun _ => rfl, fun _ _ => rfl⟩
  | none =>
    have hdata := parentData_of_correct hwf hdb hparent hs' (hcorrect n below hmem)
      (connectNode_height hconnect)
    have hdisconnect := (hwf.nodeInv hparent hs').disconnectNode hp
      (hwf c n below s' newTickets hbranch hs' hnew) hconnect hdata
    rw [hwf.stored hparent hs'] at hdisconnect
    refine ⟨s', m.setStakeNode n.hash s', bind_eq_ok.2 ⟨s', hdisconnect, rfl⟩, hs',
      fun a rest ha => CorrectAt.update ht hmem ?_ ha (hcorrect a rest ha), fun hash => ?_,
      fun hash h => update_of_ne h _ _⟩
    · obtain ⟨-, hnew, hundo⟩ := hcorrect n below hmem
      refine ⟨fun s'' h => ?_, fun t h => hnew t ?_, fun u h => hundo u ?_⟩ <;>
        rw [update_self] at h
      · rwa [← Option.some.inj h]
      · exact h
      · exact h
    · by_cases h : hash = n.hash
      · rw [h, Memory.setStakeNode, update_self]
      · rw [Memory.setStakeNode, update_of_ne h]

/-- All blocks down to the fork. -/
theorem detachLoop_spec (hbranch : c :: (rest ++ fork :: below) <:+ main)
    (hs : stakeNodeOf env store (c :: (rest ++ fork :: below)) = .ok s)
    (hcorrect : Correct env store m tree) :
    ∃ pre c' s' m', detachLoop env db c s m rest = .ok (c', s', m') ∧ c :: rest = pre ++ [c'] ∧
      stakeNodeOf env store (c' :: fork :: below) = .ok s' ∧ Correct env store m' tree ∧
      ∀ hash, (m' hash).hasParent = (m hash).hasParent := by
  induction rest generalizing c s m with
  | nil => exact ⟨[], c, s, m, rfl, rfl, hs, hcorrect, fun _ => rfl⟩
  | cons n rest ih =>
    obtain ⟨s₁, m1, hstep, hs1, hcorrect1, hlinks1, -⟩ :=
      detachStakeNode_spec hp ht hwf hdb hbranch hs hcorrect
    obtain ⟨pre, c', s', m', hloop, hlast, hs', hcorrect', hlinks'⟩ :=
      ih ((suffix_cons c _).trans hbranch) hs1 hcorrect1
    exact ⟨c :: pre, c', s', m', bind_eq_ok.2 ⟨(s₁, m1), hstep, hloop⟩, by rw [hlast]; rfl, hs',
      hcorrect', fun hash => (hlinks' hash).trans (hlinks1 hash)⟩

end Detach

/-! ## Connecting a side chain -/

/-- The stake node of a child. -/
theorem stakeNodeOf_cons (hne : branch ≠ []) : stakeNodeOf env store (n :: branch) =
    (do let s ← stakeNodeOf env store branch; connectTreeNode env store s n) := by
  cases branch with
  | nil => exact absurd rfl hne
  | cons parent below => rfl

/-- Ancestors have stake nodes. -/
theorem stakeNodeOf_append {branch upper : List TreeNode} (hne : branch ≠ [])
    (h : stakeNodeOf env store (upper ++ branch) = .ok s) :
    ∃ s', stakeNodeOf env store branch = .ok s' := by
  induction upper generalizing s with
  | nil => exact ⟨s, h⟩
  | cons n upper ih =>
    rw [cons_append, stakeNodeOf_cons (by simp [hne])] at h
    obtain ⟨s', hs', -⟩ := bind_eq_ok.1 h
    exact ih hs'

/-- One block up, with the cached tickets or new ones. -/
theorem connectStakeNode_eq (hnew : ∀ newTickets, (m n.hash).newTickets = some newTickets →
    newTicketsOf env store n = .ok newTickets) (s : Stake.Node) :
    connectStakeNode env store s m n = (do
      let newTickets ← newTicketsOf env store n
      let s ← connectNode env.hashH env.params env.lotteryFuel s n.header n.ticketsSpent
        n.ticketsRevoked (some newTickets) n.isKeyBlock
      pure (s, m.setConnected n.hash s newTickets)) := by
  unfold connectStakeNode
  cases h : (m n.hash).newTickets with
  | none => rfl
  | some newTickets => rw [hnew newTickets h]; rfl

/-- One block up: the node of the child, cached. -/
theorem connectStakeNode_spec (ht : BlockTree tree main)
    (hmem : n :: branch ∈ tree) (hne : branch ≠ []) (hs : stakeNodeOf env store branch = .ok s)
    (hs' : stakeNodeOf env store (n :: branch) = .ok s')
    (hcorrect : CorrectAt env store m n branch) :
    ∃ m', connectStakeNode env store s m n = .ok (s', m') ∧
      (∀ a rest, a :: rest ∈ tree → CorrectAt env store m a rest → CorrectAt env store m' a rest) ∧
      ∀ hash, hash ≠ n.hash → m' hash = m hash := by
  have hconnect : connectTreeNode env store s n = .ok s' := by
    rwa [stakeNodeOf_cons hne, hs] at hs'
  obtain ⟨newTickets, hnew, hconnect⟩ := bind_eq_ok.1 hconnect
  refine ⟨m.setConnected n.hash s' newTickets, ?_, fun a rest ha h =>
    CorrectAt.update ht hmem ?_ ha h, fun hash h => update_of_ne h _ _⟩
  · rw [connectStakeNode_eq hcorrect.newTickets]
    exact bind_eq_ok.2 ⟨newTickets, hnew, bind_eq_ok.2 ⟨s', hconnect, rfl⟩⟩
  · refine ⟨fun s'' h => ?_, fun t h => ?_, fun u h => hcorrect.stakeUndoData u ?_⟩ <;>
      rw [update_self] at h
    · rwa [← Option.some.inj h]
    · rwa [← Option.some.inj h]
    · exact h

/-- All blocks up from the fork. -/
theorem attachLoop_spec (ht : BlockTree tree main) (attach branch : List TreeNode)
    (hmem : attach.reverse ++ branch ∈ tree) (hne : branch ≠ [])
    (hs : stakeNodeOf env store branch = .ok s)
    (hs' : stakeNodeOf env store (attach.reverse ++ branch) = .ok s')
    (hcorrect : ∀ n ∈ attach, ∀ below, n :: below ∈ tree → CorrectAt env store m n below) :
    ∃ m', attachLoop env store s m attach = .ok (s', m') := by
  induction attach generalizing branch s m with
  | nil =>
    obtain rfl := Except.ok.inj (hs.symm.trans hs')
    exact ⟨m, rfl⟩
  | cons n attach ih =>
    rw [reverse_cons, append_assoc, singleton_append] at hmem hs'
    have hnmem := ht.suffix_mem hmem (suffix_append _ _)
    have hn := hcorrect n mem_cons_self branch hnmem
    obtain ⟨s₁, hs1⟩ := stakeNodeOf_append (cons_ne_nil n branch) hs'
    -- one node, cached or connected
    have hstep : ∃ m1, attachStakeNode env store s m n = .ok (s₁, m1) ∧
        ∀ a rest, a :: rest ∈ tree → CorrectAt env store m a rest →
        CorrectAt env store m1 a rest := by
      unfold attachStakeNode
      cases hcached : (m n.hash).stakeNode with
      | some s2 =>
        obtain rfl := Except.ok.inj (hs1.symm.trans (hn.stakeNode s2 hcached))
        exact ⟨m, rfl, fun _ _ _ h => h⟩
      | none =>
        obtain ⟨m1, hconnect, hkeep, -⟩ := connectStakeNode_spec ht hnmem hne hs hs1 hn
        exact ⟨m1, hconnect, hkeep⟩
    obtain ⟨m1, hstep, hkeep⟩ := hstep
    obtain ⟨m', hloop⟩ := ih (n :: branch) hmem (cons_ne_nil _ _) hs1 hs' fun a ha rest hrest =>
      hkeep a rest hrest (hcorrect a (mem_cons_of_mem _ ha) rest hrest)
    exact ⟨m', bind_eq_ok.2 ⟨(s₁, m1), hstep, hloop⟩⟩

/-- Without cached nodes the loop connects every block. -/
theorem attachLoop_uncached {pre : List TreeNode} (post : List TreeNode)
    (huncached : ∀ a ∈ pre, (m a.hash).stakeNode = none)
    (hnew : ∀ a ∈ pre, ∀ newTickets, (m a.hash).newTickets = some newTickets →
      newTicketsOf env store a = .ok newTickets)
    (hdistinct : (pre.map fun a => a.hash).Nodup) :
    (∀ s₁, pre.foldlM (connectTreeNode env store) s = .ok s₁ →
      ∃ m1, attachLoop env store s m (pre ++ post) = attachLoop env store s₁ m1 post ∧
        ∀ hash, hash ∉ pre.map (fun a => a.hash) → m1 hash = m hash) ∧
    ∀ r, attachLoop env store s m (pre ++ post) = .ok r →
    ∃ s₁, pre.foldlM (connectTreeNode env store) s = .ok s₁ := by
  induction pre generalizing s m with
  | nil =>
    refine ⟨fun s₁ h => ?_, fun r _ => ⟨s, rfl⟩⟩
    obtain rfl := foldlM_nil_eq_ok.1 h
    exact ⟨m, rfl, fun _ _ => rfl⟩
  | cons n pre ih =>
    obtain ⟨hn, huncached⟩ := forall_mem_cons.1 huncached
    obtain ⟨hnewn, hnew⟩ := forall_mem_cons.1 hnew
    obtain ⟨hfirst, hdistinct⟩ := nodup_cons.1 hdistinct
    -- the loop after the first node was connected
    have hrest : ∀ s₁ newTickets, newTicketsOf env store n = .ok newTickets →
        connectNode env.hashH env.params env.lotteryFuel s n.header n.ticketsSpent n.ticketsRevoked
          (some newTickets) n.isKeyBlock = .ok s₁ →
        attachLoop env store s m (n :: pre ++ post) =
          attachLoop env store s₁ (m.setConnected n.hash s₁ newTickets) (pre ++ post) := by
      intro s₁ newTickets hnew hconnect
      simp only [cons_append, attachLoop, attachStakeNode, hn, connectStakeNode_eq hnewn,
        hnew, hconnect, ok_bind, pure_bind]
    have hother :
        ∀ s₁ newTickets, ∀ a ∈ pre, m.setConnected n.hash s₁ newTickets a.hash = m a.hash :=
      fun s₁ newTickets a ha => update_of_ne (fun heq => hfirst (mem_map.2 ⟨a, ha, heq⟩)) _ _
    have hih := fun s₁ newTickets => ih (m := m.setConnected n.hash s₁ newTickets) (s := s₁)
      (fun a ha => by rw [hother s₁ newTickets a ha]; exact huncached a ha)
      (fun a ha => by rw [hother s₁ newTickets a ha]; exact hnew a ha) hdistinct
    constructor
    · intro s2 hfold
      obtain ⟨s₁, hconnect, hfold⟩ := foldlM_cons_eq_ok.1 hfold
      obtain ⟨newTickets, hnew, hconnect⟩ := bind_eq_ok.1 hconnect
      obtain ⟨m2, hloop, hframe⟩ := (hih s₁ newTickets).1 s2 hfold
      refine ⟨m2, (hrest s₁ newTickets hnew hconnect).trans hloop, fun hash hhash => ?_⟩
      rw [map_cons, mem_cons, not_or] at hhash
      rw [hframe hash hhash.2]
      exact update_of_ne hhash.1 _ _
    · intro r hrun
      have hstep := hrun
      simp only [cons_append, attachLoop, attachStakeNode, hn, connectStakeNode_eq hnewn,
        bind_eq_ok, pure_eq_ok, Prod.exists] at hstep
      obtain ⟨s₁, m1, ⟨newTickets, hnew, s₁', hconnect, heq⟩, -⟩ := hstep
      rw [hrest s₁' newTickets hnew hconnect] at hrun
      obtain ⟨s2, hfold⟩ := (hih s₁' newTickets).2 r hrun
      exact ⟨s2, foldlM_cons_eq_ok.2 ⟨s₁', bind_eq_ok.2 ⟨newTickets, hnew, hconnect⟩, hfold⟩⟩

theorem foldlM_connectTreeNode_height {ns : List TreeNode}
    (h : ns.foldlM (connectTreeNode env store) s = .ok s') : s'.height = s.height + ns.length := by
  have hsum := foldlM_sum Stake.Node.height (fun _ => 1) (fun n _ t t' hconnect => ?_) h
  · simpa using hsum
  · obtain ⟨newTickets, -, hconnect⟩ := bind_eq_ok.1 hconnect
    exact connectNode_height hconnect

/-! ## The whole walk -/

theorem parentIn_append (pre : List TreeNode) {c parent : TreeNode}
    (hpre : ∀ a ∈ pre, a.hash ≠ c.hash) :
    parentIn (pre ++ c :: parent :: rest) c = some parent := by
  have hskip : pre.dropWhile (fun a => decide (a.hash ≠ c.hash)) = [] :=
    dropWhile_eq_nil_iff.2 fun a ha => decide_eq_true (hpre a ha)
  rw [parentIn, dropWhile_append, hskip]
  simp

/-- A linked node has the next one below as its parent. -/
theorem linkedParent_append (pre : List TreeNode) {c parent : TreeNode}
    (hpre : ∀ a ∈ pre, a.hash ≠ c.hash) (hlink : (m c.hash).hasParent = true) :
    linkedParent m (pre ++ c :: parent :: rest) c = .ok parent := by
  rw [linkedParent, parentIn_append pre hpre]
  exact if_pos hlink

section Walk

variable {best node : TreeNode} {bestBelow nodeBelow : List TreeNode}

section Assumptions

variable (hp : env.params.stakeEnabledHeight + 1 ≤ env.params.stakeValidationHeight)
  (ht : BlockTree tree (best :: bestBelow)) (hwf : WellFormedChain env store (best :: bestBelow))
  (hdb : StoredChain env store db (best :: bestBelow))
  (hsound : Sound env store m tree (best :: bestBelow))
  (hnode : node :: nodeBelow ∈ tree) (hmain : best :: bestBelow = above ++ fork :: below)
  (hbranch : node :: nodeBelow = side ++ fork :: below) (hside : ∀ a ∈ side, a.inMainChain = false)
  {s₀ : Stake.Node}

include ht hnode hmain hbranch hside in
/-- When the nodes are found, and which they are. -/
theorem getReorganizeNodes_spec :
    ((∃ r, getReorganizeNodes m best bestBelow node nodeBelow = .ok r) ↔
      (∀ a ∈ side, (m a.hash).hasParent = true) ∧ LinksFound m below 1 above) ∧
    ∀ detach attach m', getReorganizeNodes m best bestBelow node nodeBelow =
      .ok (detach, attach, m') →
      detach = above ∧ attach = side.reverse ∧ SameCaches m m' ∧
        (∀ a ∈ above, (m' a.hash).hasParent = true) ∧ (above = [] → m' = m) := by
  have hfork : fork.inMainChain = true :=
    (ht.inMainChain fork below (ht.suffix_mem hnode (hbranch ▸ suffix_append _ _))).2
      (hmain ▸ suffix_append _ _)
  have hmem : above ++ fork :: below ∈ tree := hmain ▸ ht.mem_main
  have hne : ∀ a ∈ above, a.hash ≠ fork.hash := fun a ha => ht.hash_ne hmem ha
  have hdistinct : (above.map fun a => a.hash).Nodup := ht.hash_nodup hmem
  by_cases hlinked : ∀ a ∈ side, (m a.hash).hasParent = true
  · have hwalk : findFork m node nodeBelow [] = (fork.hash, side.reverse) := by
      rw [findFork_eq hbranch hside hlinked hfork, append_nil]
    unfold getReorganizeNodes
    rw [hwalk]
    constructor
    · rw [← findDetach_isOk hmain hne hdistinct]
      simp only [bind_eq_ok, pure_eq_ok, Prod.exists]
      constructor
      · rintro ⟨_, _, _, d, m', hrun, -⟩
        exact ⟨hlinked, d, m', hrun⟩
      · rintro ⟨-, d, m', hrun⟩
        exact ⟨d, side.reverse, m', d, m', hrun, rfl⟩
    · intro detach attach m' hrun
      simp only [bind_eq_ok, pure_eq_ok, Prod.exists, Prod.mk.injEq] at hrun
      obtain ⟨d, m'', hrun, rfl, rfl, rfl⟩ := hrun
      obtain ⟨rfl, hsame, hparents, hnil⟩ := findDetach_spec hmain hne hrun
      exact ⟨rfl, rfl, hsame, hparents, hnil⟩
  · -- the walk stops at a node off the main chain, which is then looked for on it
    obtain ⟨a, ha, hstop⟩ := findFork_of_unlinked [] hbranch hside hlinked
    have hoff : ∀ c ∈ best :: bestBelow, c.hash ≠ a.hash := by
      intro c hc heq
      obtain ⟨pre, post, hsplit⟩ := append_of_mem hc
      obtain ⟨pre', post', rfl⟩ := append_of_mem ha
      have hcmem : c :: post ∈ tree := ht.suffix_mem ht.mem_main (hsplit ▸ suffix_append _ _)
      have hamem : a :: (post' ++ fork :: below) ∈ tree :=
        ht.suffix_mem hnode ⟨pre', by rw [hbranch]; simp⟩
      obtain ⟨rfl, -⟩ := cons.inj (ht.hash_inj _ _ _ _ hcmem hamem heq)
      have hflag := (ht.inMainChain c post hcmem).2 (hsplit ▸ suffix_append _ _)
      rw [hside c ha] at hflag
      cases hflag
    have hfail : ∀ r, getReorganizeNodes m best bestBelow node nodeBelow ≠ .ok r := by
      intro r hrun
      obtain ⟨_, hrun, -⟩ := bind_eq_ok.1 hrun
      exact findDetach_ne_ok (hstop ▸ hoff) hrun
    exact ⟨iff_of_false (fun h => hfail _ h.choose_spec) fun h => hlinked h.1,
      fun _ _ _ hrun => absurd hrun (hfail _)⟩

/-- The first cached node of the nodes above the best one, with what comes before it connected to
the stake node below the best one: how the walk comes back to a right stake node. -/
def Resumable (env : Env) (store : Chain) (m : Memory) (best : TreeNode)
    (bestBelow attach : List TreeNode) : Prop :=
  (m best.hash).hasParent = true ∧ bestBelow ≠ [] ∧
    ∃ s₀ pre c post s₁, stakeNodeOf env store bestBelow = .ok s₀ ∧ attach = pre ++ c :: post ∧
      (∀ a ∈ pre, (m a.hash).stakeNode = none) ∧ (m c.hash).stakeNode ≠ none ∧
      pre.foldlM (connectTreeNode env store) s₀ = .ok s₁

/-- The nodes to attach up to the first cached one can be connected to a stake node. -/
def ReachesCached (env : Env) (store : Chain) (m : Memory) (attach : List TreeNode)
    (s₀ : Stake.Node) : Prop :=
  ∃ pre c post s₁, attach = pre ++ c :: post ∧ (∀ a ∈ pre, (m a.hash).stakeNode = none) ∧
    (m c.hash).stakeNode ≠ none ∧ pre.foldlM (connectTreeNode env store) s₀ = .ok s₁

theorem ReachesCached.congr {attach : List TreeNode} (h : ReachesCached env store m attach s)
    (hsame : ∀ a ∈ attach, m' a.hash = m a.hash) : ReachesCached env store m' attach s := by
  obtain ⟨pre, c, post, s₁, rfl, huncached, hcached, hfold⟩ := h
  refine ⟨pre, c, post, s₁, rfl, fun a ha => ?_, ?_, hfold⟩
  · rw [hsame a (mem_append_left _ ha)]
    exact huncached a ha
  · rwa [hsame c (by simp)]

include ht hnode hbranch in
/-- The side nodes are attached to the stake node of the fork. -/
theorem reattachStakeNode_spec (hs : stakeNodeOf env store (node :: nodeBelow) = .ok s)
    (hs₀ : stakeNodeOf env store (fork :: below) = .ok s₀) (hcorrect : Correct env store m tree) :
    ∃ m', reattachStakeNode env store node fork s₀ m side.reverse = .ok (s, m') := by
  unfold reattachStakeNode
  cases side with
  | nil =>
    obtain ⟨rfl, rfl⟩ := cons.inj hbranch
    obtain rfl := Except.ok.inj (hs.symm.trans hs₀)
    exact ⟨m, bind_eq_ok.2 ⟨⟨⟩, by simp, rfl⟩⟩
  | cons a side =>
    rw [hbranch] at hnode hs
    rw [if_neg (by simp)]
    exact attachLoop_spec ht (a :: side).reverse (fork :: below) (by rwa [reverse_reverse])
      (cons_ne_nil _ _) hs₀ (by rwa [reverse_reverse]) fun n _ => hcorrect n

include hp ht hwf hdb hsound hnode hmain hbranch hside in
/-- The walk through a fork below the best block. -/
theorem walkStakeNode_of_above (habove : above ≠ [])
    (hlinks : (∀ a ∈ side, (m a.hash).hasParent = true) ∧ LinksFound m below 1 above)
    (hs : stakeNodeOf env store (node :: nodeBelow) = .ok s) :
    ∃ m', walkStakeNode env store db m best bestBelow node nodeBelow = .ok (s, m') := by
  obtain ⟨hisOk, hspec⟩ := getReorganizeNodes_spec (m := m) ht hnode hmain hbranch hside
  obtain ⟨⟨detach, attach, m1⟩, hreorganize⟩ := hisOk.2 hlinks
  obtain ⟨rfl, rfl, hsame, hparents, -⟩ := hspec detach attach m1 hreorganize
  have hcorrect1 : Correct env store m1 tree :=
    fun a rest ha => (hsound.correct a rest ha).of_sameCaches hsame
  obtain ⟨sb, hsb⟩ := hsound.best best bestBelow rfl
  have hsb1 : (m1 best.hash).stakeNode = some sb := (hsame.stakeNode _).trans hsb
  have hbest := (hsound.correct best bestBelow ht.mem_main).stakeNode sb hsb
  cases detach with
  | nil => exact absurd rfl habove
  | cons a above =>
    obtain ⟨rfl, hbelow⟩ := cons.inj hmain
    -- the best node is the first one of the loop, and has its stake node
    have hfirst : detachStakeNode env db best sb m1 best = .ok (sb, m1) := by
      rw [detachStakeNode, hsb1]
      rfl
    subst hbelow
    obtain ⟨pre, c, s2, m2, hloop, hlast, hs2, hcorrect2, hlinks2⟩ :=
      detachLoop_spec hp ht hwf hdb suffix_rfl hbest hcorrect1
    have hsplit : best :: (above ++ fork :: below) = pre ++ c :: fork :: below := by
      rw [← cons_append, hlast]
      simp
    have hc : (m2 c.hash).hasParent = true := by
      rw [hlinks2]
      exact hparents c (hlast ▸ by simp)
    have hparent : linkedParent m2 (best :: (above ++ fork :: below)) c = .ok fork := by
      rw [hsplit]
      exact linkedParent_append pre (fun a ha => ht.hash_ne (hsplit ▸ ht.mem_main) ha) hc
    obtain ⟨s3, m3, hdetach, hs3, hcorrect3, -⟩ := detachStakeNode_spec hp ht hwf hdb
      (hsplit ▸ suffix_append pre _) hs2 hcorrect2
    obtain ⟨m', hfinish⟩ := reattachStakeNode_spec ht hnode hbranch hs hs3 hcorrect3
    refine ⟨m', bind_eq_ok.2 ⟨_, hreorganize, ?_⟩⟩
    simp only [hsb1]
    exact bind_eq_ok.2 ⟨_, bind_eq_ok.2 ⟨_, hfirst, hloop⟩, bind_eq_ok.2 ⟨_, hparent,
      bind_eq_ok.2 ⟨_, hdetach, hfinish⟩⟩⟩

/-- The nodes above the best one, attached to a stake node of the wrong height: the result is right
if and only if a cached stake node comes in between and the loop gets there. -/
theorem attachLoop_wrong (ht : BlockTree tree main) (attach branch : List TreeNode)
    (hmem : attach.reverse ++ branch ∈ tree) (hne : branch ≠ [])
    (hs : stakeNodeOf env store (attach.reverse ++ branch) = .ok s)
    (hheight : s₀.height + attach.length ≠ s.height)
    (hcorrect : Correct env store m tree) :
    (∃ m', attachLoop env store s₀ m attach = .ok (s, m')) ↔
    ReachesCached env store m attach s₀ := by
  have hnew : ∀ a ∈ attach, ∀ newTickets, (m a.hash).newTickets = some newTickets →
      newTicketsOf env store a = .ok newTickets := by
    intro a ha
    obtain ⟨pre, post, rfl⟩ := append_of_mem ha
    exact (hcorrect a (pre.reverse ++ branch)
      (ht.suffix_mem hmem ⟨post.reverse, by simp⟩)).newTickets
  have hdistinct : (attach.map fun a => a.hash).Nodup := by
    obtain ⟨b, rest, rfl⟩ := exists_cons_of_ne_nil hne
    simpa using ht.hash_nodup hmem
  constructor
  · rintro ⟨m', hrun⟩
    by_cases hall : ∀ a ∈ attach, (m a.hash).stakeNode = none
    · -- nothing is cached, so the loop connects all nodes to the wrong one
      have hloop := attachLoop_uncached (s := s₀) [] hall hnew hdistinct
      rw [append_nil] at hloop
      obtain ⟨s₁, hfold⟩ := hloop.2 _ hrun
      obtain ⟨m1, heq, -⟩ := hloop.1 s₁ hfold
      rw [hrun, attachLoop] at heq
      obtain ⟨rfl, -⟩ := Prod.mk.inj (pure_eq_ok.1 heq.symm)
      exact absurd (foldlM_connectTreeNode_height hfold).symm hheight
    · obtain ⟨c, hfind⟩ : ∃ c, attach.find? (fun a => (m a.hash).stakeNode.isSome) = some c := by
        rw [← isSome_iff_exists, find?_isSome]
        push Not at hall
        obtain ⟨a, ha, hcached⟩ := hall
        exact ⟨a, ha, isSome_iff_ne_none.2 hcached⟩
      obtain ⟨hc, pre, post, rfl, hpre⟩ := find?_eq_some_iff_append.1 hfind
      have huncached : ∀ a ∈ pre, (m a.hash).stakeNode = none :=
        fun a ha => by simpa using hpre a ha
      rw [map_append, nodup_append] at hdistinct
      obtain ⟨s₁, hfold⟩ := (attachLoop_uncached (c :: post) huncached
        (fun a ha => hnew a (mem_append_left _ ha)) hdistinct.1).2 _ hrun
      exact ⟨pre, c, post, s₁, rfl, huncached, isSome_iff_ne_none.1 hc, hfold⟩
  · rintro ⟨pre, c, post, s₁, rfl, huncached, hcached, hfold⟩
    rw [map_append, nodup_append] at hdistinct
    obtain ⟨m1, hloop, hframe⟩ := (attachLoop_uncached (c :: post) huncached
      (fun a ha => hnew a (mem_append_left _ ha)) hdistinct.1).1 s₁ hfold
    -- what comes after the uncached nodes has kept its caches
    have hsame : ∀ a ∈ c :: post, m1 a.hash = m a.hash := fun a ha =>
      hframe _ fun hmem => hdistinct.2.2 _ hmem _ (mem_map_of_mem ha) rfl
    obtain ⟨sc, hsc⟩ := ne_none_iff_exists'.1 hcached
    have hsc1 : (m1 c.hash).stakeNode = some sc := by rw [hsame c mem_cons_self, hsc]
    rw [reverse_append, reverse_cons, append_assoc, append_assoc, singleton_append] at hmem hs
    have hright := (hcorrect c _ (ht.suffix_mem hmem (suffix_append _ _))).stakeNode sc hsc
    obtain ⟨m', hattach⟩ := attachLoop_spec (m := m1) ht post (c :: (pre.reverse ++ branch)) hmem
      (cons_ne_nil _ _) hright hs fun a ha rest hrest =>
        (hcorrect a rest hrest).congr (hsame a (mem_cons_of_mem _ ha))
    refine ⟨m', ?_⟩
    rw [hloop, attachLoop, attachStakeNode, hsc1]
    exact hattach

include hp ht hwf hdb hsound hnode in
/-- The walk up from the best block. -/
theorem walkStakeNode_of_best (hbranch : node :: nodeBelow = side ++ best :: bestBelow)
    (hside : ∀ a ∈ side, a.inMainChain = false) (hne : side ≠ [])
    (hlinked : ∀ a ∈ side, (m a.hash).hasParent = true)
    (hs : stakeNodeOf env store (node :: nodeBelow) = .ok s) :
    (∃ m', walkStakeNode env store db m best bestBelow node nodeBelow = .ok (s, m')) ↔
      Resumable env store m best bestBelow side.reverse := by
  obtain ⟨hisOk, hspec⟩ :=
    getReorganizeNodes_spec (m := m) ht hnode (nil_append _).symm hbranch hside
  obtain ⟨⟨detach, attach, m1⟩, hreorganize⟩ := hisOk.2 ⟨hlinked, trivial⟩
  obtain ⟨rfl, rfl, -, -, hm1⟩ := hspec detach attach m1 hreorganize
  obtain rfl := hm1 rfl
  obtain ⟨sb, hsb⟩ := hsound.best best bestBelow rfl
  have hbest := (hsound.correct best bestBelow ht.mem_main).stakeNode sb hsb
  have hwalk : walkStakeNode env store db m1 best bestBelow node nodeBelow = (do
      let parent ← linkedParent m1 (best :: bestBelow) best
      let r ← detachStakeNode env db best sb m1 parent
      attachLoop env store r.1 r.2 side.reverse) := by
    have hattach : side.reverse.isEmpty = false := by simp [hne]
    simp only [walkStakeNode, hreorganize, bind, Except.bind, hsb, detachLoop, pure, Except.pure,
      reattachStakeNode, hattach]
    rfl
  rw [hwalk, Resumable]
  cases bestBelow with
  | nil => simp [linkedParent, parentIn, bind, Except.bind]
  | cons parent rest =>
    by_cases hlink : (m1 best.hash).hasParent = true
    · obtain ⟨s₀, m2, hdetach, hs0, hcorrect2, -, hframe⟩ :=
        detachStakeNode_spec hp ht hwf hdb suffix_rfl hbest hsound.correct
      have hmem : side ++ best :: parent :: rest ∈ tree := hbranch ▸ hnode
      have hsame : ∀ a ∈ side.reverse, m2 a.hash = m1 a.hash := by
        intro a ha
        have hsplit : (side ++ [best]) ++ parent :: rest ∈ tree := by simpa using hmem
        exact hframe _ (ht.hash_ne hsplit (mem_append_left _ (mem_reverse.1 ha)))
      have hparent : linkedParent m1 (best :: parent :: rest) best = .ok parent :=
        linkedParent_append [] (by simp) hlink
      have hheight : s₀.height + side.reverse.length ≠ s.height := by
        rw [stakeNodeOf_height hs0, stakeNodeOf_height hs, length_reverse]
        have hlength := congrArg length hbranch
        simp only [length_cons, length_append] at hlength
        omega
      simp only [hparent, ok_bind, hdetach]
      rw [attachLoop_wrong ht side.reverse (best :: parent :: rest) (by rwa [reverse_reverse])
        (cons_ne_nil _ _) (by rwa [reverse_reverse, ← hbranch]) hheight hcorrect2]
      -- the caches of the nodes to attach are as they were
      constructor
      · intro h
        obtain ⟨pre, c, post, s₁, h⟩ := h.congr fun a ha => (hsame a ha).symm
        exact ⟨hlink, cons_ne_nil _ _, s₀, pre, c, post, s₁, hs0, h⟩
      · rintro ⟨-, -, s₀', pre, c, post, s₁, hs₀', h⟩
        obtain rfl := Except.ok.inj (hs0.symm.trans hs₀')
        exact ReachesCached.congr ⟨pre, c, post, s₁, h⟩ hsame
    · refine iff_of_false ?_ fun h => hlink h.1
      rintro ⟨m', hrun⟩
      have hparentIn : parentIn (best :: parent :: rest) best = some parent :=
        parentIn_append [] (by simp)
      simp [linkedParent, hparentIn, hlink, bind, Except.bind] at hrun

/-- When `fetchStakeNode` finds the stake node of `node`, which is `side` above the main chain while
the main chain is `above` over the same fork: the node or its parent is cached, or else the links
lead to the fork from both sides and, if it is the best node itself, the walk can be resumed. -/
def Fetchable (env : Env) (store : Chain) (m : Memory) (node : TreeNode)
    (nodeBelow above side : List TreeNode) (fork : TreeNode) (below : List TreeNode) : Prop :=
  (m node.hash).stakeNode ≠ none ∨
  ((m node.hash).hasParent = true ∧ ∃ parent ∈ nodeBelow.head?, (m parent.hash).stakeNode ≠ none) ∨
  (((∀ a ∈ side, (m a.hash).hasParent = true) ∧ LinksFound m below 1 above) ∧
    (above = [] → Resumable env store m fork below side.reverse))

/-- Where neither the node nor its parent is cached, `fetchStakeNode` walks. -/
theorem fetchStakeNode_eq_walk (hcached : (m node.hash).stakeNode = none)
    (hparent : ¬ ((m node.hash).hasParent = true ∧
      ∃ parent ∈ nodeBelow.head?, (m parent.hash).stakeNode ≠ none)) :
    fetchStakeNode env store db m best bestBelow node nodeBelow =
      walkStakeNode env store db m best bestBelow node nodeBelow := by
  cases nodeBelow with
  | nil => simp only [fetchStakeNode, hcached]
  | cons parent rest =>
    cases hlink : (m node.hash).hasParent with
    | false => simp only [fetchStakeNode, hcached, hlink]
    | true =>
      have huncached : (m parent.hash).stakeNode = none := by
        by_contra hne
        exact hparent ⟨hlink, parent, rfl, hne⟩
      simp only [fetchStakeNode, hcached, hlink, huncached]

include hp ht hwf hdb hsound hnode hmain hbranch hside

end Assumptions

end Walk

/-! ## Lottery data -/

/-- `Winners`, `PoolSize` and `FinalState` of a stake node. -/
def lotteryData (s : Stake.Node) : List Hash × ℕ × List UInt8 :=
  (s.nextWinners, s.liveTickets.size, s.finalState)

/-- `lotteryDataForNode`. The pool size and the final state are those of the best node, whose stake
node is cached and stays so. -/
def lotteryDataForNode (env : Env) (store : Chain) (db : TicketDB) (m : Memory) (best : TreeNode)
    (bestBelow : List TreeNode) (node : TreeNode) (below : List TreeNode) :
    Except Err (List Hash × ℕ × List UInt8) :=
  if node.keyHeight < env.params.stakeEnabledHeight then pure ([], 0, replicate 6 0)
  else do
    let (s, _) ← fetchStakeNode env store db m best bestBelow node below
    match (m best.hash).stakeNode with
    | none => .error .panic
    | some b => pure (s.nextWinners, b.liveTickets.size, b.finalState)

/-- `findNode` with `maxSearchDepth` finds a hash on the main chain: near the best node, or at the
genesis block. -/
def findNode (main : List TreeNode) (hash : Hash) : Bool :=
  (main.take maxSearchDepth ++ main.getLast?.toList).any fun n => n.hash = hash

/-- `LotteryDataForBlock`, for the hash of `node` with the branch `node :: below`. A node that is
not in `index` is looked for by `findNode`. -/
def lotteryDataForBlock (env : Env) (store : Chain) (db : TicketDB) (m : Memory)
    (index : Hash → Bool)
    (best : TreeNode) (bestBelow : List TreeNode) (node : TreeNode) (below : List TreeNode) :
    Except Err (List Hash × ℕ × List UInt8) := do
  rejectIf (index node.hash = false ∧ findNode (best :: bestBelow) node.hash = false) Err.other
  lotteryDataForNode env store db m best bestBelow node below

/-- Without a live ticket the lottery has no winners to draw. -/
theorem connectLottery_ne_ok {c : Stake.Node} {header : BlockHeader} {isKeyBlock : Bool}
    (hempty : c.liveTickets.size = 0) :
    connectLottery env.hashH env.params env.lotteryFuel s c header isKeyBlock ≠ .ok s' := by
  intro hrun
  obtain ⟨idxs, prng, keys, hidxs, hkeys, -⟩ := connectLottery_spec hrun
  obtain ⟨hne, hlt, -⟩ := (fetchWinners_eq_ok_iff (findTicketIdxs_spec hidxs).2.1).1 hkeys
  obtain ⟨i, rest, rfl⟩ := exists_cons_of_ne_nil hne
  exact absurd (hlt i mem_cons_self) (by simp [hempty])

/-- Before the first ticket can be bought a branch has no lottery data. -/
theorem lotteryData_of_early
    (hearly : ∀ a ∈ n :: below, a.header.keyHeight < env.params.stakeEnabledHeight)
    (hs : stakeNodeOf env store (n :: below) = .ok s) :
    s.liveTickets = ∅ ∧ lotteryData s = ([], 0, replicate 6 0) := by
  induction below generalizing n s with
  | nil =>
    obtain rfl := pure_eq_ok.1 hs
    exact ⟨rfl, rfl⟩
  | cons parent below ih =>
    obtain ⟨hn, hbelow⟩ := forall_mem_cons.1 hearly
    obtain ⟨s', hs', hconnect⟩ := bind_eq_ok.1 hs
    obtain ⟨newTickets, hnew, hconnect⟩ := bind_eq_ok.1 hconnect
    obtain rfl : newTickets = [] := by
      rw [newTicketsOf, fetchNewTicketsForNode, if_pos hn, ite_self] at hnew
      exact (pure_eq_ok.1 hnew).symm
    have hempty : s'.liveTickets = ∅ := (ih hbelow hs').1
    obtain ⟨c, hc, hlot⟩ := connectNode_spec hconnect
    rw [connectTickets, if_neg (by omega)] at hc
    obtain rfl := foldlM_nil_eq_ok.1 hc
    split_ifs at hlot
    · exact absurd hlot (connectLottery_ne_ok (by simp [Node.child, hempty]))
    · rw [hlot]
      exact ⟨hempty, by simp [lotteryData, Node.child, hempty]⟩

/-- A block tree from the list of its branches. -/
theorem blockTree_of_list {bs : List (List TreeNode)}
    (hparent : ∀ b ∈ bs, b.tail = [] ∨ b.tail ∈ bs)
    (hinj : ∀ b ∈ bs, ∀ b' ∈ bs, (b.head?.map fun n => n.hash) = (b'.head?.map fun n => n.hash) →
      b = b')
    (hmain : main ∈ bs) (hgenesis : ∀ b ∈ bs, b.length = 1 → b <:+ main)
    (hflags : ∀ b ∈ bs, (b.head?.any fun n => n.inMainChain) = decide (b <:+ main)) :
    BlockTree {b | b ∈ bs} main where
  parent n parent below h := (hparent _ h).resolve_left (cons_ne_nil _ _)
  hash_inj n below n' below' h h' heq := hinj _ h _ h' (congrArg some heq)
  mem_main := hmain
  genesis n h := hgenesis _ h rfl
  inMainChain n below h := by
    have hflag := hflags _ h
    simp only [head?_cons, any_some] at hflag
    rw [hflag, decide_eq_true_iff]

/-- A key block of the main chain, by its height. -/
def keyNode (height : ℕ) : TreeNode where
  hash := Hash.ofNat height
  header := { bareHeader height height with prevKeyBlock := Hash.ofNat (height - 1) }
  height := height
  keyHeight := height
  isKeyBlock := true
  totalFees := 0
  inMainChain := true
  ticketsSpent := []
  ticketsRevoked := []

/-- A key block beside the second one. -/
def sideNode : TreeNode := { keyNode 2 with hash := Hash.ofNat 12, inMainChain := false }

/-- A micro block above the second key block, by its height. -/
def microNode (height : ℕ) : TreeNode :=
  { keyNode height with
    header := bareHeader height 3
    keyHeight := 3
    isKeyBlock := false
    inMainChain := false }

/-- The main chain: the genesis block and two key blocks. -/
def keyMain : List TreeNode := [keyNode 2, keyNode 1, keyNode 0]

/-- The branches of all blocks. -/
def keyBranches : List (List TreeNode) :=
  [[keyNode 0], [keyNode 1, keyNode 0], keyMain, [sideNode, keyNode 1, keyNode 0],
    microNode 3 :: keyMain, microNode 4 :: microNode 3 :: keyMain]

/-- A network with tickets from the first key block on. -/
def keyEnv : Env := sampleEnv { sampleParams with stakeEnabledHeight := 1 }

/-- The blocks: a ticket is bought in the first one after the genesis block, and matures in the
next. -/
def keyStore : Chain := [0, 1].map fun height =>
  ⟨⟨(keyNode height).header, [], if height = 0 then [] else [plainTx 7 [spend 1 0 0 0 0 0]
    [⟨0, 0, [0xba]⟩, ⟨0, 0, [0x6a, 30] ++ replicate 30 0⟩, ⟨0, 0, [0xbd]⟩]]⟩,
    (keyNode height).toBlockNode, genesisNode⟩

/-- The database of the main chain. -/
def keyDB : TicketDB where
  dbFetchBlockUndoData height :=
    (stakeNodeOf keyEnv keyStore (keyMain.drop (2 - height))).map Stake.Node.databaseUndoUpdate
  dbFetchNewTickets height :=
    (stakeNodeOf keyEnv keyStore (keyMain.drop (2 - height))).map fun s =>
      s.databaseBlockTickets.getD []

/-- Memory in which only the stake node of the best block is cached. -/
def keyCached : Memory := fun hash =>
  { stakeNode := if hash = Hash.ofNat 2 then
      some (valueOf (x := stakeNodeOf keyEnv keyStore keyMain) (by decide +kernel)) else none
    newTickets := none
    stakeUndoData := none
    hasParent := true }

/-- The sample branches are a tree. -/
theorem blockTree_keyBranches : BlockTree {b | b ∈ keyBranches} keyMain :=
  blockTree_of_list (by decide +kernel) (by decide +kernel) (by decide +kernel) (by decide +kernel)
    (by decide +kernel)

theorem suffix_keyMain (h : n :: below <:+ keyMain) :
    n :: below = keyMain ∨ n :: below = [keyNode 1, keyNode 0] ∨ n :: below = [keyNode 0] := by
  simpa only [keyMain, suffix_cons_iff, suffix_nil, reduceCtorEq, or_false] using h

/-- The sample chain is well formed. -/
theorem wellFormedChain_keyMain : WellFormedChain keyEnv keyStore keyMain := by
  intro n parent below s newTickets h hs hnew
  rcases suffix_keyMain h with h | h | h <;> cases h
  · obtain rfl := Except.ok.inj (hnew.symm.trans
      (by decide +kernel : newTicketsOf keyEnv keyStore (keyNode 2) = .ok [Hash.ofNat 7]))
    exact ⟨rfl, nodup_nil, nofun, by simp, by decide +kernel⟩
  · obtain rfl := Except.ok.inj (hnew.symm.trans
      (by decide +kernel : newTicketsOf keyEnv keyStore (keyNode 1) = .ok []))
    exact ⟨rfl, nodup_nil, nofun, by simp, by simp⟩

/-- The sample database stores the chain. -/
theorem storedChain_keyMain : StoredChain keyEnv keyStore keyDB keyMain := by
  intro n below s h hs
  have hheight := stakeNodeOf_height hs
  rcases suffix_keyMain h with h | h | h <;> cases h <;> rw [hheight] <;>
    exact ⟨congrArg (Except.map Stake.Node.databaseUndoUpdate) hs,
      congrArg (Except.map fun s : Stake.Node => s.databaseBlockTickets.getD []) hs⟩

/-- The sample memory is sound. -/
theorem sound_keyCached : Sound keyEnv keyStore keyCached {b | b ∈ keyBranches} keyMain := by
  refine ⟨fun n below h => ⟨fun s hs => ?_, nofun, nofun⟩, fun n below h => ?_⟩
  · simp only [keyBranches, Set.mem_ofPred_eq, mem_cons, not_mem_nil, or_false] at h
    rcases h with h | h | h | h | h | h <;> cases h <;> cases hs
    exact eq_ok_valueOf _
  · cases h
    exact ⟨_, rfl⟩

end Hcashd.Blockchain.Tree
