import Hcashd.Stake.Disconnect

/-!
# The ticket pool along a branch

A `Walk` is what a caller can do with stake nodes: connect a block to the tip of a branch, or
disconnect the tip. Since disconnecting restores the node below (`NodeInv.disconnectNode`), a walk
never leaves the branches that connecting alone builds (`Walk.grown`), and what holds of those is
shown by induction on the blocks: the three treaps of every node are a partition with the right
flags, the winners are live, and a ticket that has voted is gone for good.
-/

namespace Hcashd.Stake

open Lib List

/-- A node of a branch with the header and the kind of its block. -/
structure BranchNode where
  node : Node
  header : BlockHeader
  isKeyBlock : Bool

/-- All tickets that were added on a branch. -/
def branchTickets (branch : List BranchNode) : List Hash :=
  branch.flatMap fun b => b.node.databaseBlockTickets.getD []

/-- The tickets that have voted on a branch. -/
def votedTickets (branch : List BranchNode) : List Hash :=
  branch.flatMap fun b =>
    (b.node.databaseUndoUpdate.filter UndoTicketData.spent).map UndoTicketData.ticketHash

section Walk

variable (hashH : List UInt8 → Hash) (p : Params) (fuel : ℕ)

/-- The branches, tip first, that calls of `ConnectNode` and `DisconnectNode` lead to. The genesis
block comes before the first block with winners. -/
inductive Walk : List BranchNode → Prop
  | genesis (h : BlockHeader) (isKeyBlock : Bool)
      (hearly : realKeyHeight h isKeyBlock + 1 < p.stakeValidationHeight) :
      Walk [⟨genesisNode, h, isKeyBlock⟩]
  | connect {b : BranchNode} {branch : List BranchNode} {m : Node} {header : BlockHeader}
      {isKeyBlock : Bool} {spent revoked : List Hash} {new : Option (List Hash)}
      (hwalk : Walk (b :: branch))
      (hwf : WellFormed b.node b.header b.isKeyBlock (branchTickets (b :: branch)) header revoked
        (new.getD []))
      (hm : connectNode hashH p fuel b.node header spent revoked new isKeyBlock = .ok m) :
      Walk (⟨m, header, isKeyBlock⟩ :: b :: branch)
  | disconnect {c b : BranchNode} {branch : List BranchNode} {n : Node}
      {parentUtds : Option (List UndoTicketData)} {parentTickets : Option (List Hash)}
      {dbTx : Option TicketDB} (hwalk : Walk (c :: b :: branch))
      (hdata : ParentData b.node c.node parentUtds parentTickets dbTx)
      (hn : disconnectNode hashH p fuel c.node b.header parentUtds parentTickets c.isKeyBlock dbTx =
        .ok n) :
      Walk ({ b with node := n } :: branch)

/-- The branches that connecting alone builds. A node may be given as disconnecting returns it. -/
inductive Grown : List BranchNode → Prop
  | genesis (h : BlockHeader) (isKeyBlock : Bool)
      (hearly : realKeyHeight h isKeyBlock + 1 < p.stakeValidationHeight) :
      Grown [⟨genesisNode, h, isKeyBlock⟩]
  | connect {b : BranchNode} {branch : List BranchNode} {m m' : Node} {header : BlockHeader}
      {isKeyBlock : Bool} {spent revoked : List Hash} {new : Option (List Hash)}
      (hgrown : Grown (b :: branch))
      (hwf : WellFormed b.node b.header b.isKeyBlock (branchTickets (b :: branch)) header revoked
        (new.getD []))
      (hm : connectNode hashH p fuel b.node header spent revoked new isKeyBlock = .ok m)
      (hm' : m' = m ∨ m' = m.stored) : Grown (⟨m', header, isKeyBlock⟩ :: b :: branch)

end Walk

/-- The invariant does not depend on the order in which tickets were seen, and more of them may have
been. -/
theorem NodeInv.mono {hashH : List UInt8 → Hash} {p : Params} {fuel : ℕ} {n : Node}
    {h : BlockHeader}
    {isKeyBlock : Bool} {seen seen' : List Hash} (hn : NodeInv hashH p fuel n h isKeyBlock seen)
    (hseen : ∀ k ∈ seen, k ∈ seen') : NodeInv hashH p fuel n h isKeyBlock seen' :=
  ⟨hn.pools, fun k hk => hn.unseen k fun hs => hk (hseen k hs), hn.winners_nodup, hn.winners_live,
    hn.genesis, hn.keyHeight, hn.lottery⟩

variable {hashH : List UInt8 → Hash} {p : Params} {fuel : ℕ}

/-- What a block does to the node of its parent, seen from outside: it makes the moves that its log
lists, of distinct tickets that the parent has or that are new. -/
structure Connected (n m : Node) (header : BlockHeader) (new : List Hash) : Prop where
  height : m.height = n.height + 1
  keyHeight : m.keyHeight = header.keyHeight
  blockTickets : m.databaseBlockTickets.getD [] = new
  nodup : (m.databaseUndoUpdate.map UndoTicketData.ticketHash).Nodup
  frame : ∀ k, k ∉ m.databaseUndoUpdate.map UndoTicketData.ticketHash → m.pools k = n.pools k
  move : ∀ u ∈ m.databaseUndoUpdate,
    Move u.ticketHash (n.pools u.ticketHash) u (m.pools u.ticketHash)
  old : ∀ u ∈ m.databaseUndoUpdate, n.pools u.ticketHash ≠ (none, none, none) ∨
    u.ticketHash ∈ new ∧ u.ticketHeight = m.height ∧ u.ticketKeyHeight = m.keyHeight

/-- `connectNode` keeps the invariant. -/
theorem NodeInv.connected {n m m' : Node} {h header : BlockHeader} {isKeyParent isKeyBlock : Bool}
    {seen spent revoked : List Hash} {new : Option (List Hash)}
    (hn : NodeInv hashH p fuel n h isKeyParent seen)
    (hwf : WellFormed n h isKeyParent seen header revoked (new.getD []))
    (hm : connectNode hashH p fuel n header spent revoked new isKeyBlock = .ok m)
    (hm' : m' = m ∨ m' = m.stored) : Connected n m' header (new.getD []) := by
  obtain ⟨c, hc, hlot⟩ := connectNode_spec hm
  obtain ⟨us, hmoved, -, hold⟩ := connectTickets_moved hn hwf hc
  have hlog : c.databaseUndoUpdate = us := hmoved.log
  have hconnected : Connected n c header (new.getD []) := by
    refine ⟨hmoved.height, hmoved.keyHeight, congrArg (·.getD []) hmoved.blockTickets, ?_, ?_, ?_,
      ?_⟩ <;> rw [hlog]
    · exact hmoved.nodup
    · exact hmoved.frame
    · exact hmoved.move
    · exact hold
  -- the lottery sets winners and final state, which `Connected` does not look at
  have hm : Connected n m header (new.getD []) := by
    split_ifs at hlot
    · obtain ⟨_, _, _, _, _, _, _, rfl⟩ := connectLottery_spec hlot
      exact { hconnected with }
    · rw [hlot]
      exact hconnected
  rcases hm' with rfl | rfl
  · exact hm
  · exact { hm with }

/-- A node that is read back keeps the invariant. -/
theorem NodeInv.stored {n : Node} {h : BlockHeader} {isKeyBlock : Bool} {seen : List Hash}
    (hn : NodeInv hashH p fuel n h isKeyBlock seen) :
    NodeInv hashH p fuel n.stored h isKeyBlock seen :=
  { hn with genesis := fun h0 => by rw [hn.genesis h0]; rfl }

variable {b : BranchNode} {branch : List BranchNode}

/-- A grown branch has the invariant at its tip. -/
theorem Grown.inv (h : Grown hashH p fuel (b :: branch)) :
    NodeInv hashH p fuel b.node b.header b.isKeyBlock (branchTickets (b :: branch)) := by
  generalize hbs : b :: branch = bs at h
  induction h generalizing b branch with
  | genesis h isKeyBlock _ =>
    cases hbs
    exact NodeInv.genesisNode h isKeyBlock
  | @connect b' branch' m m' header isKeyBlock spent revoked new _ hwf hm hm' ih =>
    cases hbs
    have hinv := ih rfl
    have hinv' : NodeInv hashH p fuel m' header isKeyBlock
        (branchTickets (b' :: branch') ++ new.getD []) := by
      rcases hm' with rfl | rfl
      · exact hinv.connect hwf hm
      · exact (hinv.connect hwf hm).stored
    refine hinv'.mono fun k hk => ?_
    rw [branchTickets, flatMap_cons, (hinv.connected hwf hm hm').blockTickets]
    rw [mem_append] at hk ⊢
    exact hk.symm

theorem Grown.stored (h : Grown hashH p fuel (b :: branch)) :
    Grown hashH p fuel ({ b with node := b.node.stored } :: branch) := by
  cases h with
  | genesis h isKeyBlock hearly => exact .genesis h isKeyBlock hearly
  | connect hgrown hwf hm hm' =>
    refine .connect hgrown hwf hm (.inr ?_)
    rcases hm' with rfl | rfl <;> rfl

/-- Disconnecting the tip of a branch gives back the node below it. -/
theorem Grown.disconnectNode (hp : p.stakeEnabledHeight + 1 ≤ p.stakeValidationHeight)
    {c : BranchNode}
    {parentUtds : Option (List UndoTicketData)} {parentTickets : Option (List Hash)}
    {dbTx : Option TicketDB} (h : Grown hashH p fuel (c :: b :: branch))
    (hdata : ParentData b.node c.node parentUtds parentTickets dbTx) :
    Stake.disconnectNode hashH p fuel c.node b.header parentUtds parentTickets c.isKeyBlock dbTx =
      .ok b.node.stored ∧ Grown hashH p fuel (b :: branch) := by
  cases h with
  | connect hgrown hwf hm hm' =>
    refine ⟨?_, hgrown⟩
    -- the new tickets of the block itself are not looked at
    rcases hm' with rfl | rfl <;> exact hgrown.inv.disconnectNode hp hwf hm hdata

/-- Every walk over the tree ends on a grown branch. -/
theorem Walk.grown (hp : p.stakeEnabledHeight + 1 ≤ p.stakeValidationHeight)
    (h : Walk hashH p fuel branch) : Grown hashH p fuel branch := by
  induction h with
  | genesis h isKeyBlock hearly => exact .genesis h isKeyBlock hearly
  | connect _ hwf hm ih => exact .connect ih hwf hm (.inl rfl)
  | disconnect _ hdata hn ih =>
    obtain ⟨hrestored, hgrown⟩ := ih.disconnectNode hp hdata
    obtain rfl := Except.ok.inj (hrestored.symm.trans hn)
    exact hgrown.stored

/-! ## One ticket -/

/-- A ticket is in at most one treap, and its flags are those of the treap. -/
structure Pools.Sorted (x : Pools) : Prop where
  live : ∀ v, x.1 = some v → v.Fresh ∧ x.2.1 = none ∧ x.2.2 = none
  missed : ∀ v, x.2.1 = some v → v.missed = true ∧ v.revoked = false ∧ v.spent = false ∧
    x.2.2 = none
  revoked : ∀ v, x.2.2 = some v → v.missed = true ∧ v.revoked = true

/-- A move keeps the places of a ticket sorted. -/
theorem Move.sorted {k : Hash} {x y : Pools} {u : UndoTicketData} (h : Move k x u y)
    (hx : x.Sorted) : y.Sorted := by
  cases h with
  | voted hv =>
    obtain ⟨-, hm, -⟩ := hx.live _ rfl
    exact ⟨by simp, fun v hv => absurd (hm.symm.trans hv) (by simp), hx.revoked⟩
  | missed hv =>
    refine ⟨by simp, fun v h => ?_, hx.revoked⟩
    obtain rfl := Option.some.inj h
    exact ⟨rfl, hv.2.1, rfl, (hx.live _ rfl).2.2⟩
  | expired hv =>
    refine ⟨by simp, fun v h => ?_, hx.revoked⟩
    obtain rfl := Option.some.inj h
    exact ⟨rfl, hv.2.1, hv.2.2.1, (hx.live _ rfl).2.2⟩
  | revoked hm hr =>
    refine ⟨fun v hv => ?_, by simp, fun v h => ?_⟩
    · have hnone := (hx.live v hv).2.1
      simp at hnone
    · obtain rfl := Option.some.inj h
      exact ⟨hm, rfl⟩
  | added hv =>
    refine ⟨fun v h => ?_, by simp, by simp⟩
    obtain rfl := Option.some.inj h
    exact ⟨hv, rfl, rfl⟩

/-- A spent ticket is nowhere. -/
theorem Move.pools_of_spent {k : Hash} {x y : Pools} {u : UndoTicketData} (h : Move k x u y)
    (hx : x.Sorted) (hspent : u.spent = true) : y = (none, none, none) := by
  cases h with
  | voted hv =>
    obtain ⟨-, hm, hr⟩ := hx.live _ rfl
    exact Prod.ext rfl (Prod.ext hm hr)
  | missed hv => exact absurd hspent (by simp [undoOf])
  | expired hv => exact absurd hspent (by simp [undoOf, hv.2.2.1])
  | revoked hm hr => exact absurd hspent (by simp [undoOf, (hx.missed _ rfl).2.2.1])
  | added hv => exact absurd hspent (by simp [undoOf, hv.2.2.1])

/-! ## The branch -/

/-- The tickets of a node that a branch leads to: each is in at most one treap with the flags of
that treap, and none that has voted is in any. -/
theorem Grown.sorted (h : Grown hashH p fuel (b :: branch)) :
    (∀ k, (b.node.pools k).Sorted) ∧ ∀ k ∈ votedTickets (b :: branch),
    b.node.pools k = (none, none, none) ∧
        k ∈ branchTickets (b :: branch) := by
  generalize hbs : b :: branch = bs at h
  induction h generalizing b branch with
  | genesis h isKeyBlock _ =>
    cases hbs
    refine ⟨fun k => ?_, by simp [votedTickets, genesisNode]⟩
    have hempty : genesisNode.pools k = (none, none, none) := by simp [Node.pools, genesisNode]
    rw [hempty]
    exact ⟨by simp, by simp, by simp⟩
  | @connect b' branch' _ m header isKeyBlock spent revoked new hgrown hwf hm hm' ih =>
    cases hbs
    obtain ⟨hsorted, hvoted⟩ := ih rfl
    have hm := hgrown.inv.connected hwf hm hm'
    have htickets : branchTickets (⟨m, header, isKeyBlock⟩ :: b' :: branch') =
        new.getD [] ++ branchTickets (b' :: branch') := by
      rw [branchTickets, flatMap_cons, hm.blockTickets]
      rfl
    constructor
    · intro k
      by_cases hk : k ∈ m.databaseUndoUpdate.map UndoTicketData.ticketHash
      · obtain ⟨u, hu, rfl⟩ := mem_map.1 hk
        exact (hm.move u hu).sorted (hsorted _)
      · change (m.pools k).Sorted
        rw [hm.frame k hk]
        exact hsorted k
    · intro k hk
      rw [htickets]
      rw [votedTickets, flatMap_cons, mem_append] at hk
      rcases hk with hk | hk
      · -- the ticket votes in the last block, so it was on the branch before
        obtain ⟨u, hu, rfl⟩ := mem_map.1 hk
        obtain ⟨hu, hspent⟩ := mem_filter.1 hu
        refine ⟨(hm.move u hu).pools_of_spent (hsorted _) hspent, ?_⟩
        rw [mem_append]
        refine (hm.old u hu).symm.imp And.left fun hne => ?_
        by_contra hnot
        exact hne (hgrown.inv.unseen _ hnot)
      · -- the ticket has voted before, and is not new
        obtain ⟨hnone, hseen⟩ := hvoted k hk
        refine ⟨(hm.frame k fun hmem => ?_).trans hnone, mem_append_right _ hseen⟩
        obtain ⟨u, hu, rfl⟩ := mem_map.1 hmem
        exact (hm.old u hu).elim (fun hne => hne hnone) fun hin => hwf.new_unseen _ hin.1 hseen

/-- The winners and the final state of a node that a branch leads to are those of the lottery for
its header. -/
theorem Grown.lotteryOk (h : Grown hashH p fuel (b :: branch)) :
    LotteryOk hashH p fuel b.node b.header b.isKeyBlock := by
  have hinv := h.inv
  cases h with
  | genesis h isKeyBlock hearly =>
    rw [LotteryOk, if_neg (by simpa using hearly)]
    exact ⟨rfl, rfl⟩
  | @connect b' _ _ m' _ _ _ _ _ hgrown hwf hm hm' =>
    have hheight : m'.height = b'.node.height + 1 := (hgrown.inv.connected hwf hm hm').height
    exact hinv.lottery (by rw [hheight]; exact Nat.succ_ne_zero _)

/-- The tickets of a node are sorted into three disjoint treaps, with the flags of each. -/
structure Node.Partitioned (n : Node) : Prop where
  live_missed : ∀ k ∈ n.liveTickets, k ∉ n.missedTickets
  live_revoked : ∀ k ∈ n.liveTickets, k ∉ n.revokedTickets
  missed_revoked : ∀ k ∈ n.missedTickets, k ∉ n.revokedTickets
  live : ∀ (k : Hash) (v : Value), n.liveTickets[k]? = some v →
    v.missed = false ∧ v.revoked = false ∧ v.spent = false ∧ v.expired = false
  missed : ∀ (k : Hash) (v : Value), n.missedTickets[k]? = some v →
    v.missed = true ∧ v.revoked = false ∧ v.spent = false
  revoked : ∀ (k : Hash) (v : Value), n.revokedTickets[k]? = some v → v.missed = true ∧
    v.revoked = true

/-- A node whose tickets are sorted is partitioned. -/
theorem Node.partitioned_of_sorted {n : Node} (h : ∀ k, (n.pools k).Sorted) : n.Partitioned := by
  have hnot : ∀ {t : TicketTreap} {k : Hash}, t[k]? = none → k ∉ t := by
    intro t k hk
    simp [mem_treap, hk]
  refine ⟨fun k hk => ?_, fun k hk => ?_, fun k hk => ?_, fun k v hv => ((h k).live v hv).1,
    fun k v hv => ?_, fun k v hv => (h k).revoked v hv⟩
  · obtain ⟨v, hv⟩ := mem_treap.1 hk
    exact hnot ((h k).live v hv).2.1
  · obtain ⟨v, hv⟩ := mem_treap.1 hk
    exact hnot ((h k).live v hv).2.2
  · obtain ⟨v, hv⟩ := mem_treap.1 hk
    exact hnot ((h k).missed v hv).2.2.2
  · obtain ⟨hm, hr, hs, -⟩ := (h k).missed v hv
    exact ⟨hm, hr, hs⟩

/-- Wherever connecting and disconnecting leads, the tickets are partitioned, a ticket that has
voted on the branch is in none of the treaps, and from the key height before votes are required on
there are as many winners as a block has votes, distinct and live. -/
theorem ticketPool_partition (hp : p.stakeEnabledHeight + 1 ≤ p.stakeValidationHeight)
    (hwalk : Walk hashH p fuel (b :: branch)) :
    b.node.Partitioned ∧ (∀ k ∈ votedTickets (b :: branch),
        k ∉ b.node.liveTickets ∧ k ∉ b.node.missedTickets ∧ k ∉ b.node.revokedTickets) ∧
      (p.stakeValidationHeight ≤ realKeyHeight b.header b.isKeyBlock + 1 →
        b.node.nextWinners.length = p.ticketsPerBlock ∧ b.node.nextWinners.Nodup ∧
          ∀ k ∈ b.node.nextWinners, k ∈ b.node.liveTickets) := by
  have hgrown := hwalk.grown hp
  obtain ⟨hsorted, hvoted⟩ := hgrown.sorted
  refine ⟨Node.partitioned_of_sorted hsorted, fun k hk => ?_, fun hreal =>
    ⟨?_, hgrown.inv.winners_nodup, hgrown.inv.winners_live⟩⟩
  · have hnone := (hvoted k hk).1
    simp only [Node.pools, Prod.mk.injEq] at hnone
    simp [mem_treap, hnone]
  · have hlottery := hgrown.lotteryOk
    rw [LotteryOk, if_pos hreal] at hlottery
    exact hlottery.1

/-- Three key blocks: the first adds four tickets, the second sees its winner vote and the others
expired, and the third is disconnected again. -/
def votedRun : Except Err (Node × Node × Node × Node) := do
  let n ← connectNode lengthHash oneVoteNet 8 genesisNode (bareHeader 1 0) [] []
    (some [10, 20, 30, 40]) true
  let m ← connectNode lengthHash oneVoteNet 8 n (bareHeader 2 1) n.nextWinners [] (some [50]) true
  let c ← connectNode lengthHash oneVoteNet 8 m (bareHeader 3 2) [] [] (some [60]) true
  let r ← disconnectNode lengthHash oneVoteNet 8 c (bareHeader 2 1) (some m.databaseUndoUpdate)
    m.databaseBlockTickets true none
  pure (n, m, c, r)

/-- The nodes of the run, with the branch that its last call leaves. -/
theorem ticketPool_partition_votedRun : ∃ n m c r, votedRun = .ok (n, m, c, r) ∧
    r.Partitioned ∧ r.missedTickets.size = 3 ∧ r.nextWinners.length = 1 ∧
      ∃ k ∈ votedTickets [⟨r, bareHeader 2 1, true⟩, ⟨n, bareHeader 1 0, true⟩,
          ⟨genesisNode, bareHeader 0 0, false⟩],
        k ∉ r.liveTickets ∧ k ∉ r.missedTickets ∧ k ∉ r.revokedTickets := by
  have hrun : ∃ x, votedRun = .ok x ∧ x.1.databaseBlockTickets = some [10, 20, 30, 40] ∧
      x.2.1.databaseBlockTickets = some [50] ∧ x.2.2.2.missedTickets.size = 3 ∧
      10 ∈ votedTickets [⟨x.2.2.2, bareHeader 2 1, true⟩, ⟨x.1, bareHeader 1 0, true⟩,
        ⟨genesisNode, bareHeader 0 0, false⟩] := by
    decide +kernel
  obtain ⟨⟨n, m, c, r⟩, hrun, hn₀, hm₀, hmissed, hvoted⟩ := hrun
  dsimp only at hn₀ hm₀ hmissed hvoted
  have hsteps := hrun
  unfold votedRun at hsteps
  simp only [bind_eq_ok, pure_eq_ok, Prod.mk.injEq] at hsteps
  obtain ⟨n', hn, m', hm, c', hc, r', hr, rfl, rfl, rfl, rfl⟩ := hsteps
  have hwalk : Walk lengthHash oneVoteNet 8
      [⟨r', bareHeader 2 1, true⟩, ⟨n', bareHeader 1 0, true⟩,
        ⟨genesisNode, bareHeader 0 0, false⟩] := by
    refine .disconnect
      (.connect (.connect (.connect (.genesis (bareHeader 0 0) false (by decide)) ?_ hn)
      ?_ hm) ?_ hc) (fun _ => by simp [hm₀, fetchParentData, pure, Except.pure]) hr
    · exact ⟨rfl, by simp, by simp, by decide +kernel, by decide +kernel⟩
    · refine ⟨rfl, by simp, by simp, by decide +kernel, ?_⟩
      simp only [branchTickets, flatMap_cons, hn₀]
      decide +kernel
    · refine ⟨rfl, by simp, by simp, by decide +kernel, ?_⟩
      simp only [branchTickets, flatMap_cons, hn₀, hm₀]
      decide +kernel
  obtain ⟨hpart, hgone, hwinners⟩ := ticketPool_partition (by decide) hwalk
  have hreal :
      oneVoteNet.stakeValidationHeight ≤ realKeyHeight (bareHeader 2 1) true + 1 := by decide
  exact ⟨n', m', c', r', hrun, hpart, hmissed, (hwinners hreal).1, 10, hvoted, hgone 10 hvoted⟩

end Hcashd.Stake
