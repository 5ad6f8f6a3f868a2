import Hcashd.Stake.Moves

/-!
# Disconnecting a block restores the stake node

The stake nodes that `connectNode` can produce from the genesis node, on inputs as the callers give
them, are `Reachable`. They keep `NodeInv`: every ticket is in at most one treap with the flags of
that treap, the winners are live tickets, and the winners and the final state are those of the
lottery seeded with the node's own header.

`connectNode_spec` says what a block does to such a node: moves of distinct tickets, logged in
order, in which the winners of the log are the winners that the block used up. `disconnectNode`
replays the log (`Reverses.replay`), takes the winners from it or from the micro block's node, and
draws the lottery again with the parent's header (`disconnectNode_connectNode`).
-/

namespace Hcashd.Stake

open Lib List Std.ExtTreeMap UndoTicketData

variable (hashH : List UInt8 → Hash) (p : Params) (fuel : ℕ) {k : Hash} {u : UndoTicketData}

/-- What the callers of `ConnectNode` promise of a block's inputs, over the parent node `n` with
header `h`: the key height counts key blocks, the revocations are of distinct missed tickets, and
the new tickets are distinct and were never seen. -/
structure WellFormed (n : Node) (h : BlockHeader) (isKeyParent : Bool) (seen : List Hash)
    (header : BlockHeader) (revokedTickets newTickets : List Hash) : Prop where
  keyHeight : header.keyHeight = realKeyHeight h isKeyParent
  revoked_nodup : revokedTickets.Nodup
  revoked_missed : ∀ t ∈ revokedTickets, t ∈ n.missedTickets
  new_nodup : newTickets.Nodup
  new_unseen : ∀ t ∈ newTickets, t ∉ seen

/-- The nodes reached from the genesis node by `ConnectNode`, each with its header, whether its
block is a key block, and all tickets seen so far. -/
inductive Reachable : Node → BlockHeader → Bool → List Hash → Prop
  | genesis (h : BlockHeader) (isKeyBlock : Bool) : Reachable genesisNode h isKeyBlock []
  | connect {n m : Node} {h header : BlockHeader} {isKeyParent isKeyBlock : Bool}
      {seen spent revoked : List Hash} {new : Option (List Hash)}
      (hn : Reachable n h isKeyParent seen)
      (hwf : WellFormed n h isKeyParent seen header revoked (new.getD []))
      (hm : connectNode hashH p fuel n header spent revoked new isKeyBlock = .ok m) :
      Reachable m header isKeyBlock (seen ++ new.getD [])

/-- The winners and the final state of a node are those of the lottery for its header. -/
def LotteryOk (n : Node) (h : BlockHeader) (isKeyBlock : Bool) : Prop :=
  if p.stakeValidationHeight ≤ realKeyHeight h isKeyBlock + 1 then
    n.nextWinners.length = p.ticketsPerBlock ∧
      ∃ idxs prng, findTicketIdxs hashH fuel n.liveTickets.size p.ticketsPerBlock
          (newHash256PRNG hashH h.bytes) = .ok (idxs, prng) ∧
        n.finalState = lotteryFinalState hashH n.nextWinners prng
  else n.nextWinners = [] ∧ n.finalState = replicate 6 0

/-- What holds of every reachable node. -/
structure NodeInv (n : Node) (h : BlockHeader) (isKeyBlock : Bool) (seen : List Hash) : Prop where
  pools : ∀ k, (n.pools k).Ok
  unseen : ∀ k, k ∉ seen → n.pools k = (none, none, none)
  winners_nodup : n.nextWinners.Nodup
  winners_live : ∀ k ∈ n.nextWinners, k ∈ n.liveTickets
  genesis : n.height = 0 → n = genesisNode
  keyHeight : n.height ≠ 0 → n.keyHeight = h.keyHeight
  lottery : n.height ≠ 0 → LotteryOk hashH p fuel n h isKeyBlock

/-! ## What a block does -/

/-- No ticket expires twice. -/
theorem nodup_fetchExpired (height : ℕ) (t : TicketTreap) : (fetchExpired height t).Nodup := by
  have hkeys : t.keys.Nodup := distinct_keys.imp fun h heq => h (by simp [heq])
  rw [← map_fst_toList_eq_keys] at hkeys
  exact hkeys.sublist (filter_sublist.map Prod.fst)

theorem mem_of_mem_fetchExpired {height : ℕ} {t : TicketTreap}
    (hk : k ∈ fetchExpired height t) : ∃ v, t[k]? = some v := by
  obtain ⟨⟨_, v⟩, hmem, rfl⟩ := mem_map.1 hk
  exact ⟨v, mem_toList_iff_getElem?_eq_some.1 (mem_filter.1 hmem).1⟩

theorem Move.live_of_winner {x y : Pools} (h : Move k x u y) (hw : u.winner ≠ []) : y.1 = none := by
  cases h with
  | voted | missed | expired => rfl
  | revoked hm hr => simp [winner, undoOf, hm] at hw
  | added hv => simp [winner, undoOf, hv.1, hv.2.2.1] at hw

variable {us : List UndoTicketData}

theorem flatMap_winner_self (h : ∀ u ∈ us, u.winner = [u.ticketHash]) :
    us.flatMap winner = us.map ticketHash := by
  induction us with
  | nil => rfl
  | cons u us ih =>
    rw [flatMap_cons, map_cons, h u mem_cons_self, ih fun v hv => h v (mem_cons_of_mem _ hv)]
    rfl

variable {hashH p fuel} {n m c r r' : Node} {h header : BlockHeader} {isKeyParent isKeyBlock : Bool}
  {seen spent revoked : List Hash} {new : Option (List Hash)}

/-- The part for blocks from `StakeEnabledHeight` on moves tickets that are live or missed, and the
winners of its log are those of a key block's parent. -/
theorem connectStakeEnabled_moved {c' : Node} (hpools : ∀ k, (c.pools k).Ok)
    (hnodup : n.nextWinners.Nodup)
    (hlive : ∀ k ∈ n.nextWinners, k ∈ c.liveTickets) (hrnodup : revoked.Nodup)
    (hrmissed : ∀ t ∈ revoked, t ∈ c.missedTickets)
    (h : connectStakeEnabled p n c spent revoked isKeyBlock = .ok c') :
    ∃ us, Moved c us c' ∧ us.flatMap winner = (if isKeyBlock then n.nextWinners else []) ∧
      ∀ u ∈ us, c.pools u.ticketHash ≠ (none, none, none) := by
  unfold connectStakeEnabled at h
  simp only [bind_eq_ok, rejectIf_eq_ok] at h
  obtain ⟨_, -, c1, h1, c2, h2, h3⟩ := h
  -- The winners.
  obtain ⟨us1, hkeys1, hwin1, hmoved1⟩ : ∃ us, us.map ticketHash =
      (if isKeyBlock then n.nextWinners else []) ∧ (∀ u ∈ us, u.winner = [u.ticketHash]) ∧
      Moved c us c1 := by
    cases isKeyBlock with
    | true =>
      exact foldlM_moved (fun x => ∀ v, x.1 = some v → v.Fresh)
        (fun _ _ u => u.winner = [u.ticketHash])
        (fun c t c' hfresh h => connectWinner_moved hfresh h) hnodup
        (fun t _ v hv => ((hpools t).live v hv).1) h1
    | false =>
      obtain rfl := pure_eq_ok.1 h1
      exact ⟨[], rfl, by simp, Moved.refl c⟩
  have hpools1 := hmoved1.ok hpools
  -- A ticket that is live after the winners were moved was live before, and is no winner.
  have hlive1 : ∀ k v, c1.liveTickets[k]? = some v →
      k ∉ us1.map ticketHash ∧ c.liveTickets[k]? = some v := by
    intro k v hk
    have hnot : k ∉ us1.map ticketHash := by
      intro hmem
      obtain ⟨u, hu, rfl⟩ := mem_map.1 hmem
      have hnone := (hmoved1.move u hu).live_of_winner (by rw [hwin1 u hu]; simp)
      exact absurd (hnone.symm.trans hk) (by simp)
    exact ⟨hnot, (congrArg Prod.fst (hmoved1.frame k hnot)).symm.trans hk⟩
  -- The expired tickets.
  obtain ⟨us2, hkeys2, hwin2, hmoved2⟩ : ∃ us : List UndoTicketData,
      (∀ k ∈ us.map ticketHash, ∃ v, c1.liveTickets[k]? = some v) ∧
      (∀ u ∈ us, u.winner = []) ∧ Moved c1 us c2 := by
    cases isKeyBlock with
    | true =>
      obtain ⟨us, hkeys, hwin, hmoved⟩ := foldlM_moved (fun x => ∀ v, x.1 = some v → v.Fresh)
        (fun _ _ u => u.winner = []) (fun c t c' hfresh h => connectExpired_moved hfresh h)
          (nodup_fetchExpired _ _)
        (fun t _ v hv => ((hpools1 t).live v hv).1) h2
      exact ⟨us, fun k hk => mem_of_mem_fetchExpired (hkeys ▸ hk), hwin, hmoved⟩
    | false =>
      obtain rfl := pure_eq_ok.1 h2
      exact ⟨[], by simp, by simp, Moved.refl c1⟩
  have hdisj12 : Disjoint (us1.map ticketHash) (us2.map ticketHash) := by
    intro k hk1 hk2
    obtain ⟨v, hv⟩ := hkeys2 k hk2
    exact (hlive1 k v hv).1 hk1
  have hmoved12 := hmoved1.trans hmoved2 hdisj12
  -- Winners and expired tickets were live, so none of them was missed.
  have hwaslive : ∀ k ∈ (us1 ++ us2).map ticketHash, ∃ v, c.liveTickets[k]? = some v := by
    intro k hk
    rw [map_append, mem_append] at hk
    rcases hk with hk | hk
    · refine mem_treap.1 (hlive k ?_)
      rw [hkeys1] at hk
      cases isKeyBlock with
      | true => exact hk
      | false => simp at hk
    · obtain ⟨v, hv⟩ := hkeys2 k hk
      exact ⟨v, (hlive1 k v hv).2⟩
  -- The revocations.
  obtain ⟨us3, hkeys3, hwin3, hmoved3⟩ := foldlM_moved Pools.Ok (fun _ _ u => u.winner = [])
    (fun c t c' hok h => connectRevoked_moved hok h) hrnodup (fun t _ => hmoved12.ok hpools t) h3
  have hwasmissed : ∀ k ∈ us3.map ticketHash, ∃ v, c.missedTickets[k]? = some v :=
    fun k hk => mem_treap.1 (hrmissed k (hkeys3 ▸ hk))
  refine ⟨(us1 ++ us2) ++ us3, hmoved12.trans hmoved3 ?_, ?_, ?_⟩
  · intro k hk hk3
    obtain ⟨v, hv⟩ := hwaslive k hk
    obtain ⟨w, hw⟩ := hwasmissed k hk3
    have hnone := ((hpools k).live v hv).2.1
    exact absurd (hnone.symm.trans hw) (by simp)
  · rw [flatMap_append, flatMap_append, flatMap_eq_nil_iff.2 hwin2,
      flatMap_eq_nil_iff.2 hwin3, flatMap_winner_self hwin1, hkeys1, append_nil, append_nil]
  · intro u hu hnone
    rcases mem_append.1 hu with hu | hu
    · obtain ⟨v, hv⟩ := hwaslive _ (mem_map_of_mem hu)
      exact absurd ((congrArg Prod.fst hnone).symm.trans hv) (by simp)
    · obtain ⟨v, hv⟩ := hwasmissed _ (mem_map_of_mem hu)
      exact absurd ((congrArg (fun x => x.2.1) hnone).symm.trans hv) (by simp)

/-- All moves of a block: they are of distinct tickets, each of which the parent has or is new, with
the heights of the block, and the winners of the log are those of a key block's parent, from
`StakeEnabledHeight` on. -/
theorem connectTickets_moved (hn : NodeInv hashH p fuel n h isKeyParent seen)
    (hwf : WellFormed n h isKeyParent seen header revoked (new.getD []))
    (hc : connectTickets p n header spent revoked new isKeyBlock = .ok c) :
    ∃ us, Moved (n.child header new) us c ∧ us.flatMap winner =
        (if isKeyBlock ∧ p.stakeEnabledHeight ≤ header.keyHeight then n.nextWinners else []) ∧
      ∀ u ∈ us, n.pools u.ticketHash ≠ (none, none, none) ∨
        u.ticketHash ∈ new.getD [] ∧ u.ticketHeight = c.height ∧
        u.ticketKeyHeight = c.keyHeight := by
  -- The moves before the new tickets.
  obtain ⟨us, c1, hmoved, hwin, hold, hnew⟩ : ∃ us c1, Moved (n.child header new) us c1 ∧
      us.flatMap winner =
        (if isKeyBlock ∧ p.stakeEnabledHeight ≤ header.keyHeight then n.nextWinners else []) ∧
      (∀ u ∈ us, n.pools u.ticketHash ≠ (none, none, none)) ∧
      (new.getD []).foldlM connectNew c1 = .ok c := by
    unfold connectTickets at hc
    split_ifs at hc with hse
    · obtain ⟨c1, hc1, hc⟩ := bind_eq_ok.1 hc
      obtain ⟨us, hmoved, hwin, hold⟩ := connectStakeEnabled_moved (c := n.child header new)
        hn.pools hn.winners_nodup hn.winners_live hwf.revoked_nodup hwf.revoked_missed hc1
      exact ⟨us, c1, hmoved, by simpa [hse] using hwin, hold, hc⟩
    · exact ⟨[], _, Moved.refl _, by simp [hse], by simp, hc⟩
  have hdisj : Disjoint (us.map ticketHash) (new.getD []) := by
    intro k hk hknew
    obtain ⟨u, hu, rfl⟩ := mem_map.1 hk
    exact hold u hu (hn.unseen _ (hwf.new_unseen _ hknew))
  -- The new tickets.
  obtain ⟨vs, hkeys, hvs, hmoved'⟩ := foldlM_moved (fun x => x = (none, none, none))
    (fun height keyHeight u =>
      u.winner = [] ∧ u.ticketHeight = height ∧ u.ticketKeyHeight = keyHeight)
    (fun c t c' hnone h => connectNew_moved hnone h) hwf.new_nodup
    (fun t ht =>
      (hmoved.frame t fun hk => hdisj hk ht).trans (hn.unseen t (hwf.new_unseen t ht))) hnew
  refine ⟨us ++ vs, hmoved.trans hmoved' (hkeys ▸ hdisj), ?_, ?_⟩
  · rw [flatMap_append, hwin, flatMap_eq_nil_iff.2 fun u hu => (hvs u hu).1, append_nil]
  · intro u hu
    rcases mem_append.1 hu with hu | hu
    · exact .inl (hold u hu)
    · refine .inr ⟨hkeys ▸ mem_map_of_mem hu, ?_, ?_⟩
      · rw [(hvs u hu).2.1, hmoved'.height]
      · rw [(hvs u hu).2.2, hmoved'.keyHeight]

/-- What `connectLottery` adds to a node: winners and a final state. -/
theorem connectLottery_spec (h : connectLottery hashH p fuel n c header isKeyBlock = .ok m) :
    ∃ idxs prng keys, findTicketIdxs hashH fuel c.liveTickets.size p.ticketsPerBlock
        (newHash256PRNG hashH header.bytes) = .ok (idxs, prng) ∧
      fetchWinners idxs c.liveTickets = .ok keys ∧ keys.length = p.ticketsPerBlock ∧
      (isKeyBlock = false → keys.length ≤ n.nextWinners.length) ∧
      m = { c with
        nextWinners := if isKeyBlock then keys else n.nextWinners.take keys.length
        finalState := lotteryFinalState hashH
          (if isKeyBlock then keys else n.nextWinners.take keys.length) prng } := by
  unfold connectLottery at h
  simp only [bind_eq_ok, Prod.exists, rejectIf_eq_ok, pure_eq_ok, not_and, not_lt] at h
  obtain ⟨idxs, prng, hidxs, keys, hkeys, _, hlen, rfl⟩ := h
  obtain ⟨hcount, hnodup, -⟩ := findTicketIdxs_spec hidxs
  exact ⟨idxs, prng, keys, hidxs, hkeys, (length_fetchWinners hnodup hkeys).trans hcount, hlen, rfl⟩

/-- A block's node: the moves of the block, with winners and final state on top. -/
theorem connectNode_spec
    (h : connectNode hashH p fuel n header spent revoked new isKeyBlock = .ok m) :
    ∃ c, connectTickets p n header spent revoked new isKeyBlock = .ok c ∧
      (if p.stakeValidationHeight ≤ realKeyHeight header isKeyBlock + 1 then
        connectLottery hashH p fuel n c header isKeyBlock = .ok m else m = c) := by
  unfold connectNode at h
  obtain ⟨c, hc, h⟩ := bind_eq_ok.1 h
  refine ⟨c, hc, ?_⟩
  split_ifs at h ⊢ with hsv
  · exact h
  · exact (pure_eq_ok.1 h).symm

/-- A micro block takes no ticket out of the live ones. -/
theorem connectTickets_live_of_micro
    (hc : connectTickets p n header spent revoked new false = .ok c) {k : Hash}
    (hk : k ∈ n.liveTickets) : k ∈ c.liveTickets := by
  have hrevoked :
      ∀ c t c', k ∈ c.liveTickets → connectRevoked c t = .ok c' → k ∈ c'.liveTickets := by
    intro c t c' hk h
    unfold connectRevoked at h
    simp only [bind_eq_ok, pure_eq_ok] at h
    obtain ⟨_, -, _, -, _, -, rfl⟩ := h
    exact hk
  have hnew : ∀ c t c', k ∈ c.liveTickets → connectNew c t = .ok c' → k ∈ c'.liveTickets := by
    intro c t c' hk h
    unfold connectNew at h
    simp only [bind_eq_ok, safePut_eq_ok, pure_eq_ok] at h
    obtain ⟨_, ⟨-, rfl⟩, rfl⟩ := h
    exact mem_insert.2 (.inr hk)
  have hnews : ∀ c1 : Node, k ∈ c1.liveTickets → (new.getD []).foldlM connectNew c1 = .ok c →
      k ∈ c.liveTickets := fun c1 hk h =>
    foldlM_invariant (fun c : Node => k ∈ c.liveTickets) (fun t _ c c' => hnew c t c') hk h
  by_cases hse : p.stakeEnabledHeight ≤ header.keyHeight
  · simp only [connectTickets, if_pos hse, connectStakeEnabled, connectWinners, connectExpiring,
      Bool.false_eq_true, if_false, bind_eq_ok, pure_eq_ok] at hc
    obtain ⟨c1, ⟨_, -, _, rfl, _, rfl, hrev⟩, hc⟩ := hc
    refine hnews c1 ?_ hc
    exact foldlM_invariant (fun c : Node => k ∈ c.liveTickets) (fun t _ c c' => hrevoked c t c')
      (s := n.child header new) hk hrev
  · simp only [connectTickets, if_neg hse] at hc
    exact hnews (n.child header new) hk hc

theorem connectTickets_height
    (hc : connectTickets p n header spent revoked new isKeyBlock = .ok c) :
    c.height = n.height + 1 := by
  have hwinner : ∀ c t c', connectWinner spent c t = .ok c' → c'.height = c.height := by
    intro c t c' h
    unfold connectWinner at h
    obtain ⟨_, -, h⟩ := bind_eq_ok.1 h
    split_ifs at h <;> simp only [bind_eq_ok, pure_eq_ok] at h
    · obtain ⟨_, -, rfl⟩ := h
      rfl
    · obtain ⟨_, -, _, -, rfl⟩ := h
      rfl
  have hexpired : ∀ c t c', connectExpired c t = .ok c' → c'.height = c.height := by
    simp only [connectExpired, bind_eq_ok, pure_eq_ok]
    rintro c t c' ⟨_, -, _, -, _, -, rfl⟩
    rfl
  have hrevoked : ∀ c t c', connectRevoked c t = .ok c' → c'.height = c.height := by
    simp only [connectRevoked, bind_eq_ok, pure_eq_ok]
    rintro c t c' ⟨_, -, _, -, _, -, rfl⟩
    rfl
  have hnew : ∀ c t c', connectNew c t = .ok c' → c'.height = c.height := by
    simp only [connectNew, bind_eq_ok, pure_eq_ok]
    rintro c t c' ⟨_, -, rfl⟩
    rfl
  have hloop {f : Node → Hash → Except Err Node} {ts : List Hash} {c c' : Node}
      (hf : ∀ c t c', f c t = .ok c' → c'.height = c.height) (hrun : ts.foldlM f c = .ok c') :
      c'.height = c.height :=
    foldlM_invariant (fun d : Node => d.height = c.height) (fun t _ d d' hd h =>
      (hf d t d' h).trans hd) rfl hrun
  unfold connectTickets at hc
  split_ifs at hc
  · obtain ⟨c3, hstake, hc⟩ := bind_eq_ok.1 hc
    simp only [connectStakeEnabled, connectWinners, connectExpiring, bind_eq_ok] at hstake
    obtain ⟨_, -, c1, hc1, c2, hc2, hc3⟩ := hstake
    rw [hloop hnew hc, hloop hrevoked hc3]
    split_ifs at hc1 hc2
    · exact (hloop hexpired hc2).trans (hloop hwinner hc1)
    · rw [← pure_eq_ok.1 hc2, ← pure_eq_ok.1 hc1]
      rfl
  · exact hloop hnew hc

/-- A child is one higher. -/
theorem connectNode_height
    (h : connectNode hashH p fuel n header spent revoked new isKeyBlock = .ok m) :
    m.height = n.height + 1 := by
  obtain ⟨c, hc, hlot⟩ := connectNode_spec h
  have hheight := connectTickets_height hc
  split_ifs at hlot
  · obtain ⟨_, _, _, -, -, -, -, rfl⟩ := connectLottery_spec hlot
    exact hheight
  · exact hlot ▸ hheight

/-- Each block keeps the invariant. -/
theorem NodeInv.connect (hn : NodeInv hashH p fuel n h isKeyParent seen)
    (hwf : WellFormed n h isKeyParent seen header revoked (new.getD []))
    (hm : connectNode hashH p fuel n header spent revoked new isKeyBlock = .ok m) :
    NodeInv hashH p fuel m header isKeyBlock (seen ++ new.getD []) := by
  obtain ⟨c, hc, hlot⟩ := connectNode_spec hm
  obtain ⟨us, hmoved, -, hold⟩ := connectTickets_moved hn hwf hc
  have hpools : ∀ k, (c.pools k).Ok := hmoved.ok hn.pools
  have hunseen : ∀ k, k ∉ seen ++ new.getD [] → c.pools k = (none, none, none) := by
    intro k hk
    rw [hmoved.frame k fun hmem => ?_]
    · exact hn.unseen k fun hs => hk (mem_append_left _ hs)
    · obtain ⟨u, hu, rfl⟩ := mem_map.1 hmem
      rw [mem_append, not_or] at hk
      exact (hold u hu).elim (fun hne => hne (hn.unseen _ hk.1)) fun hnew => hk.2 hnew.1
  have hheight : c.height = n.height + 1 := hmoved.height
  split_ifs at hlot with hsv
  · obtain ⟨idxs, prng, keys, hidxs, hkeys, hlen, hmicro, rfl⟩ := connectLottery_spec hlot
    have hnodup := (findTicketIdxs_spec hidxs).2.1
    refine ⟨hpools, hunseen, ?_, ?_, fun h0 => absurd (hheight.symm.trans h0) (by simp),
      fun _ => hmoved.keyHeight, fun _ => ?_⟩
    · cases isKeyBlock with
      | true => exact nodup_fetchWinners hnodup hkeys
      | false => exact hn.winners_nodup.sublist (take_sublist _ _)
    · intro k hk
      cases isKeyBlock with
      | true => exact mem_of_mem_fetchWinners hnodup hkeys hk
      | false =>
        exact connectTickets_live_of_micro hc (hn.winners_live k (mem_of_mem_take hk))
    · unfold LotteryOk
      rw [if_pos hsv]
      refine ⟨?_, idxs, prng, hidxs, rfl⟩
      cases isKeyBlock with
      | true => exact hlen
      | false =>
        simp only [Bool.false_eq_true, if_false, length_take]
        rw [min_eq_left (hmicro rfl), hlen]
  · subst hlot
    have hwinners : m.nextWinners = [] := hmoved.nextWinners
    refine ⟨hpools, hunseen, by simp [hwinners], by simp [hwinners],
      fun h0 => absurd (hheight.symm.trans h0) (by simp), fun _ => hmoved.keyHeight, fun _ => ?_⟩
    unfold LotteryOk
    rw [if_neg hsv]
    exact ⟨hwinners, hmoved.finalState⟩

/-- The tickets that a child stores are those it was given. -/
theorem NodeInv.databaseBlockTickets (hn : NodeInv hashH p fuel n h isKeyParent seen)
    (hwf : WellFormed n h isKeyParent seen header revoked (new.getD []))
    (hm : connectNode hashH p fuel n header spent revoked new isKeyBlock = .ok m) :
    m.databaseBlockTickets = new := by
  obtain ⟨c, hc, hlot⟩ := connectNode_spec hm
  obtain ⟨us, hmoved, -⟩ := connectTickets_moved hn hwf hc
  split_ifs at hlot
  · obtain ⟨_, _, _, -, -, -, -, rfl⟩ := connectLottery_spec hlot
    exact hmoved.blockTickets
  · rw [hlot]
    exact hmoved.blockTickets

/-- The invariant of the genesis node. -/
theorem NodeInv.genesisNode (h : BlockHeader) (isKeyBlock : Bool) :
    NodeInv hashH p fuel genesisNode h isKeyBlock [] := by
  have hempty : ∀ k, Stake.genesisNode.pools k = (none, none, none) := fun k => by
    simp [Node.pools, Stake.genesisNode]
  refine ⟨fun k => ?_, fun k _ => hempty k, nodup_nil, by simp [Stake.genesisNode], fun _ => rfl,
    fun h0 => absurd rfl h0, fun h0 => absurd rfl h0⟩
  rw [hempty k]
  exact ⟨by simp, by simp⟩

/-- Every node that is reached has the invariant. -/
theorem Reachable.inv (hn : Reachable hashH p fuel n h isKeyBlock seen) :
    NodeInv hashH p fuel n h isKeyBlock seen := by
  induction hn with
  | genesis h isKeyBlock => exact NodeInv.genesisNode h isKeyBlock
  | connect _ hwf hm ih => exact ih.connect hwf hm

/-! ## Disconnecting -/

theorem undoTicket_rest (h : undoTicket r u = .ok r') : r' = { r with
      liveTickets := r'.liveTickets
      missedTickets := r'.missedTickets
      revokedTickets := r'.revokedTickets
      nextWinners := r.nextWinners ++ u.winner } := by
  unfold undoTicket at h
  split_ifs at h with hnew hrevoked hmissed hexpired hspent <;>
    simp only [bind_eq_ok, pure_eq_ok] at h
  all_goals
    first
    | obtain ⟨_, -, rfl⟩ := h
    | obtain ⟨_, -, _, -, rfl⟩ := h
    cases hm : u.missed <;> simp_all [winner]

/-- Undoing tickets touches the three treaps only. -/
theorem foldlM_undoTicket_rest (h : us.foldlM undoTicket r = .ok r') : r' = { r with
      liveTickets := r'.liveTickets
      missedTickets := r'.missedTickets
      revokedTickets := r'.revokedTickets
      nextWinners := r.nextWinners ++ us.flatMap winner } := by
  induction us generalizing r with
  | nil =>
    obtain rfl := foldlM_nil_eq_ok.1 h
    rw [flatMap_nil, append_nil]
  | cons u us ih =>
    obtain ⟨r1, h1, hrest⟩ := foldlM_cons_eq_ok.1 h
    have hr' := ih hrest
    rw [undoTicket_rest h1] at hr'
    rwa [flatMap_cons, ← append_assoc]

/-- The treaps are known by where each ticket is. -/
theorem treaps_eq_of_pools {n n' : Node} (h : ∀ k, n'.pools k = n.pools k) :
    n'.liveTickets = n.liveTickets ∧ n'.missedTickets = n.missedTickets ∧
    n'.revokedTickets = n.revokedTickets :=
  ⟨ext_getElem? fun k => congrArg Prod.fst (h k), ext_getElem? fun k =>
    congrArg (fun x => x.2.1) (h k), ext_getElem? fun k => congrArg (fun x => x.2.2) (h k)⟩

/-- A node as `disconnectNode` and the database give it back: a nil list of new tickets is empty. -/
def Node.stored (n : Node) : Node :=
  { n with databaseBlockTickets := some (n.databaseBlockTickets.getD []) }

/-- A node comes back from the database iff it knows its new tickets. -/
theorem Node.stored_eq_self_iff : n.stored = n ↔ n.databaseBlockTickets ≠ none := by
  rw [Node.ext_iff]
  cases h : n.databaseBlockTickets <;> simp [Node.stored, h]

/-- The log and the new tickets of the parent `n` of `m` are passed to `disconnectNode` or found in
the database. The genesis node needs neither. -/
def ParentData (n m : Node) (parentUtds : Option (List UndoTicketData))
    (parentTickets : Option (List Hash)) (dbTx : Option TicketDB) : Prop :=
  n.height ≠ 0 → fetchParentData m parentUtds parentTickets dbTx =
    .ok (n.databaseUndoUpdate, n.databaseBlockTickets.getD [])

/-- Disconnecting a block from the node that connecting it gave restores the parent's node. -/
theorem NodeInv.disconnectNode (hp : p.stakeEnabledHeight + 1 ≤ p.stakeValidationHeight)
    (hinv : NodeInv hashH p fuel n h isKeyParent seen)
    (hwf : WellFormed n h isKeyParent seen header revoked (new.getD []))
    (hm : connectNode hashH p fuel n header spent revoked new isKeyBlock = .ok m)
    {parentUtds : Option (List UndoTicketData)} {parentTickets : Option (List Hash)}
    {dbTx : Option TicketDB} (hdata : ParentData n m parentUtds parentTickets dbTx) :
    Stake.disconnectNode hashH p fuel m h parentUtds parentTickets isKeyBlock dbTx =
      .ok n.stored := by
  obtain ⟨c, hc, hlot⟩ := connectNode_spec hm
  obtain ⟨us, hmoved, hwin, -⟩ := connectTickets_moved hinv hwf hc
  -- The node of the block: the treaps and the log of its moves.
  obtain ⟨hheight, hkeyHeight, hlog, hpools⟩ : m.height = n.height + 1 ∧
      m.keyHeight = header.keyHeight ∧ m.databaseUndoUpdate = us ∧ ∀ k, m.pools k = c.pools k := by
    have hlog : c.databaseUndoUpdate = us := hmoved.log
    split_ifs at hlot with hsv
    · obtain ⟨_, _, _, _, _, _, _, rfl⟩ := connectLottery_spec hlot
      exact ⟨hmoved.height, hmoved.keyHeight, hlog, fun _ => rfl⟩
    · subst hlot
      exact ⟨hmoved.height, hmoved.keyHeight, hlog, fun _ => rfl⟩
  unfold Stake.disconnectNode
  by_cases h0 : n.height = 0
  · rw [if_pos (by omega), hinv.genesis h0]
    rfl
  rw [if_neg (by omega)]
  -- The replay restores the treaps and returns the winners of the log.
  obtain ⟨r, hr, hrpools⟩ := hmoved.reverses.replay
    (s := m.parent h n.databaseUndoUpdate (n.databaseBlockTickets.getD [])) hpools
  obtain ⟨hl, hmi, hre⟩ := treaps_eq_of_pools (n := n) hrpools
  have hr_eq := foldlM_undoTicket_rest hr
  rw [hl, hmi, hre] at hr_eq
  have hlottery := hinv.lottery h0
  have hreal := hwf.keyHeight
  unfold LotteryOk at hlottery
  rw [← hreal] at hlottery
  -- The winners are those of the parent.
  have hwinners : (if isKeyBlock then r.nextWinners else m.nextWinners) = n.nextWinners := by
    cases isKeyBlock with
    | true =>
      simp only [if_pos, hr_eq, hwin, true_and]
      split_ifs with hse
      · rfl
      · -- Before `StakeEnabledHeight` the parent has no winners.
        rw [if_neg (by omega)] at hlottery
        rw [hlottery.1]
        rfl
    | false =>
      rw [if_neg (by simp)]
      simp only [realKeyHeight, Bool.false_eq_true, if_false] at hlot
      split_ifs at hlot hlottery with hsv
      · obtain ⟨_, _, keys, _, _, hlen, _, rfl⟩ := connectLottery_spec hlot
        simp only [Bool.false_eq_true, if_false]
        exact take_of_length_le (by rw [hlen, hlottery.1])
      · subst hlot
        rw [hmoved.nextWinners, hlottery.1]
        rfl
  refine bind_eq_ok.2 ⟨_, hdata h0, bind_eq_ok.2 ⟨r, by rw [hlog]; exact hr, ?_⟩⟩
  generalize hr' : (if isKeyBlock then r else { r with nextWinners := m.nextWinners }) = r'
  have hwinners' : r'.nextWinners = n.nextWinners := by
    rw [← hwinners, ← hr']
    cases isKeyBlock <;> rfl
  have hrest : r' = { r with nextWinners := n.nextWinners } := by
    rw [← hwinners', ← hr']
    cases isKeyBlock <;> rfl
  have hnode : ∀ fs, fs = n.finalState → { r' with finalState := fs } = n.stored := by
    rintro fs rfl
    rw [hrest, hr_eq]
    ext1 <;> simp [Node.parent, Node.stored, hheight, hinv.keyHeight h0]
  -- So is the final state: the lottery is drawn from the same tickets with the same header.
  simp only [hkeyHeight]
  split_ifs at hlottery ⊢ with hsv
  · obtain ⟨_, idxs, prng, hidxs, hfinal⟩ := hlottery
    refine bind_eq_ok.2 ⟨(idxs, prng), by rw [hrest, hl]; exact hidxs, ?_⟩
    exact pure_eq_ok.2 (hnode _ (by rw [hwinners', hfinal]))
  · refine pure_eq_ok.2 ((hnode r'.finalState ?_).symm ▸ rfl)
    rw [hrest, hlottery.2, hr_eq]
    rfl

/-- Disconnecting a block from the node that connecting it gave, with the parent's own log and list
of new tickets and without the database, restores the parent's node, whatever the kinds of the two
blocks. A nil list of new tickets counts as missing, and is asked of the database. -/
theorem disconnectNode_connectNode (hp : p.stakeEnabledHeight + 1 ≤ p.stakeValidationHeight)
    {n m : Node} {h header : BlockHeader} {isKeyParent isKeyBlock : Bool}
    {seen spent revoked : List Hash} {new : Option (List Hash)}
    (hn : Reachable hashH p fuel n h isKeyParent seen)
    (hwf : WellFormed n h isKeyParent seen header revoked (new.getD []))
    (hm : connectNode hashH p fuel n header spent revoked new isKeyBlock = .ok m) :
    disconnectNode hashH p fuel m h (some n.databaseUndoUpdate) n.databaseBlockTickets
      isKeyBlock none =
      if n.databaseBlockTickets = none then .error (.stake .missingDatabaseTx) else .ok n := by
  split_ifs with hnil
  · have hheight : m.height ≠ 1 := by
      intro h1
      rw [hn.inv.genesis (by rw [connectNode_height hm] at h1; omega)] at hnil
      exact absurd hnil (by simp [genesisNode])
    rw [disconnectNode, if_neg hheight, hnil]
    rfl
  · rw [← Node.stored_eq_self_iff.2 hnil]
    refine hn.inv.disconnectNode hp hwf hm fun _ => ?_
    cases htickets : n.databaseBlockTickets with
    | none => exact absurd htickets hnil
    | some tickets => simp [Node.stored, fetchParentData, htickets, pure, Except.pure]

/-- A network with votes from key height one on, one ticket called for in each block. -/
def oneVoteNet : Params :=
  { (default : Params) with
    stakeEnabledHeight := 1, stakeValidationHeight := 2, ticketsPerBlock := 1, ticketExpiry := 10 }

/-- A stand-in for the hash function, which reads the length of its argument. -/
def lengthHash (bs : List UInt8) : Hash := .ofNat (0x100000007 ^ bs.length)

/-- A header with heights only. -/
def bareHeader (height keyHeight : ℕ) : BlockHeader :=
  { (default : BlockHeader) with height := height, keyHeight := keyHeight, bits := 0x207fffff }

/-- Two key blocks on the genesis node: the first adds three tickets, of which the second sees the
winner missed and the other two expired, and the second adds one. -/
def missedWinnerRun : Except Err (Node × Node) := do
  let n ← connectNode lengthHash oneVoteNet 8 genesisNode (bareHeader 1 0) [] []
    (some [10, 20, 30]) true
  let m ← connectNode lengthHash oneVoteNet 8 n (bareHeader 2 1) [] [] (some [40]) true
  pure (n, m)

/-- The second of the two blocks can be disconnected. -/
theorem disconnectNode_missedWinnerRun : ∃ n m, missedWinnerRun = .ok (n, m) ∧
    m.missedTickets.size = 3 ∧ disconnectNode lengthHash oneVoteNet 8 m (bareHeader 1 0)
      (some n.databaseUndoUpdate) n.databaseBlockTickets true none = .ok n := by
  obtain ⟨⟨n, m⟩, hrun, hmissed, hnew⟩ : ∃ x, missedWinnerRun = .ok x ∧
      x.2.missedTickets.size = 3 ∧ x.1.databaseBlockTickets ≠ none := by decide +kernel
  have hsteps := hrun
  unfold missedWinnerRun at hsteps
  simp only [bind_eq_ok, pure_eq_ok, Prod.mk.injEq] at hsteps
  obtain ⟨n', hn, m', hm, rfl, rfl⟩ := hsteps
  refine ⟨n', m', hrun, hmissed, (disconnectNode_connectNode (by decide)
    (.connect (.genesis (bareHeader 0 0) false) ?_ hn) ?_ hm).trans (if_neg hnew)⟩
  · exact ⟨rfl, by simp, by simp, by decide +kernel, by simp⟩
  · exact ⟨rfl, by simp, by simp, by decide +kernel, by decide +kernel⟩

/-- Two micro blocks on the genesis node, both without new tickets: the first is given nil for them,
as the upgrade of the stake database does for a block in which none mature. -/
def nilTicketsRun : Except Err (Node × Node) := do
  let n ← connectNode lengthHash oneVoteNet 8 genesisNode (bareHeader 1 0) [] [] none false
  let m ← connectNode lengthHash oneVoteNet 8 n (bareHeader 2 0) [] [] (some []) false
  pure (n, m)

/-- The second of them cannot be disconnected with the parent's own data. -/
theorem exists_disconnectNode_missingDatabaseTx : ∃ n m, nilTicketsRun = .ok (n, m) ∧
    Reachable lengthHash oneVoteNet 8 n (bareHeader 1 0) false [] ∧
    WellFormed n (bareHeader 1 0) false [] (bareHeader 2 0) [] [] ∧
    disconnectNode lengthHash oneVoteNet 8 m (bareHeader 1 0) (some n.databaseUndoUpdate)
      n.databaseBlockTickets false none = .error (.stake .missingDatabaseTx) := by
  obtain ⟨⟨n, m⟩, hrun, hdisconnect⟩ : ∃ x, nilTicketsRun = .ok x ∧
      disconnectNode lengthHash oneVoteNet 8 x.2 (bareHeader 1 0) (some x.1.databaseUndoUpdate)
        x.1.databaseBlockTickets false none = .error (.stake .missingDatabaseTx) := by
    decide +kernel
  have hsteps := hrun
  unfold nilTicketsRun at hsteps
  simp only [bind_eq_ok, pure_eq_ok, Prod.mk.injEq] at hsteps
  obtain ⟨n', hn, m', -, rfl, rfl⟩ := hsteps
  refine ⟨n', m', hrun, .connect (.genesis (bareHeader 0 0) false) ?_ hn, ?_, hdisconnect⟩
  all_goals exact ⟨rfl, by simp, by simp, by simp, by simp⟩

end Hcashd.Stake
