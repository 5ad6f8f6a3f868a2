import Hcashd.Lib.UndoLog
import Hcashd.Stake.Tickets

/-!
# Ticket moves

What a block can do to one ticket: call it and see it vote, call it and see it missed, let it
expire, revoke it, or add it. `Move` lists the five, each with the log entry that `connectNode`
writes for it. A block's moves concern distinct tickets (`Moved`), each loop of `connectNode` makes
moves of one kind (`foldlM_moved`), and a log of moves reverses them (`Moved.reverses`).
-/

namespace Hcashd.Stake

open Lib List Std.ExtTreeMap UndoTicketData

/-- What the three treaps hold for one ticket: live, missed and revoked. -/
abbrev Pools := Option Value × Option Value × Option Value

/-- What the three treaps of a node hold for a ticket. -/
def Node.pools (n : Node) (k : Hash) : Pools :=
  (n.liveTickets[k]?, n.missedTickets[k]?, n.revokedTickets[k]?)

/-- A live ticket: no flag is set. -/
def Value.Fresh (v : Value) : Prop :=
  v.missed = false ∧ v.revoked = false ∧ v.spent = false ∧ v.expired = false

/-- The moves of a ticket `k`, with their log entries. -/
inductive Move (k : Hash) : Pools → UndoTicketData → Pools → Prop
  | voted {v : Value} {m r : Option Value} (hv : v.Fresh) :
    Move k (some v, m, r) (undoOf k { v with spent := true, missed := false }) (none, m, r)
  | missed {v : Value} {r : Option Value} (hv : v.Fresh) :
    Move k (some v, none, r) (undoOf k { v with spent := false, missed := true })
      (none, some { v with spent := false, missed := true }, r)
  | expired {v : Value} {r : Option Value} (hv : v.Fresh) :
    Move k (some v, none, r) (undoOf k { v with missed := true, expired := true })
      (none, some { v with missed := true, expired := true }, r)
  | revoked {v : Value} {l : Option Value} (hm : v.missed = true) (hr : v.revoked = false) :
    Move k (l, some v, none) (undoOf k { v with revoked := true })
      (l, none, some { v with revoked := true })
  | added {v : Value} (hv : v.Fresh) : Move k (none, none, none) (undoOf k v) (some v, none, none)

/-- The winners that `undoTicket` restores from a log entry. -/
def UndoTicketData.winner (u : UndoTicketData) : List Hash :=
  if u.missed && !u.revoked && !u.expired || !u.missed && u.spent then [u.ticketHash] else []

/-- The pools of a ticket never hold it twice, and its flags tell where it is. -/
structure Pools.Ok (x : Pools) : Prop where
  live : ∀ v, x.1 = some v → v.Fresh ∧ x.2.1 = none ∧ x.2.2 = none
  missed : ∀ v, x.2.1 = some v → v.missed = true ∧ v.revoked = false ∧ x.2.2 = none

variable {k t : Hash} {v : Value} {c c' : Node} {x y : Pools} {u : UndoTicketData}
  {us : List UndoTicketData}

/-- A move leaves a ticket in one place. -/
theorem Move.ok (h : Move k x u y) (hx : x.Ok) : y.Ok := by
  cases h with
  | voted hv =>
    obtain ⟨_, hm, hr⟩ := hx.live _ rfl
    exact ⟨by simp, fun v hv => absurd (hm.symm.trans hv) (by simp)⟩
  | missed hv | expired hv =>
    obtain ⟨_, _, hr⟩ := hx.live _ rfl
    refine ⟨by simp, fun v h => ?_⟩
    obtain rfl := Option.some.inj h
    exact ⟨rfl, hv.2.1, hr⟩
  | revoked hm hr =>
    refine ⟨fun v hv => ?_, by simp⟩
    have := (hx.live v hv).2.1
    simp at this
  | added hv =>
    refine ⟨fun v h => ?_, by simp⟩
    obtain rfl := Option.some.inj h
    exact ⟨hv, rfl, rfl⟩

/-! ## The treap operations by lookups -/

/-- When `safeGet` succeeds. -/
theorem safeGet_eq_ok {t : TicketTreap} : safeGet t k = .ok v ↔ t[k]? = some v := by
  unfold safeGet
  cases t[k]? <;> simp

theorem mem_treap {t : TicketTreap} : k ∈ t ↔ ∃ v, t[k]? = some v := by
  rw [mem_iff_isSome_getElem?, Option.isSome_iff_exists]

/-- When `safePut` succeeds. -/
theorem safePut_eq_ok {t t' : TicketTreap} :
    safePut t k v = .ok t' ↔ t[k]? = none ∧ t' = t.insert k v := by
  unfold safePut
  split_ifs with h
  · obtain ⟨v, hv⟩ := mem_treap.1 h
    simp [hv]
  · rw [mem_treap, ← Option.ne_none_iff_exists', not_not] at h
    simp [h, eq_comm]

/-- When `safeDelete` succeeds. -/
theorem safeDelete_eq_ok {t t' : TicketTreap} :
    safeDelete t k = .ok t' ↔ (∃ v, t[k]? = some v) ∧ t' = t.erase k := by
  unfold safeDelete
  split_ifs with h
  · rw [Except.ok.injEq, eq_comm]
    exact (and_iff_right (mem_treap.1 h)).symm
  · simp [mem_treap.not.1 h]

/-- Two treaps differ at most in one ticket. -/
def SameBut (k : Hash) (t t' : TicketTreap) : Prop := ∀ j, j ≠ k → t'[j]? = t[j]?

theorem SameBut.refl (t : TicketTreap) : SameBut k t t := fun _ _ => rfl

theorem SameBut.erase (t : TicketTreap) : SameBut k t (t.erase k) := fun j hj => by
  rw [getElem?_erase, if_neg]
  rw [Std.LawfulEqOrd.compare_eq_iff_eq]
  exact hj.symm

theorem SameBut.insert (t : TicketTreap) : SameBut k t (t.insert k v) := fun j hj => by
  rw [Std.ExtTreeMap.getElem?_insert, if_neg]
  rw [Std.LawfulEqOrd.compare_eq_iff_eq]
  exact hj.symm

/-! ## Undoing a move -/

/-- Undoing one ticket leaves the others. -/
theorem undoTicket_frame {s s' : Node} (h : undoTicket s u = .ok s') {j : Hash}
    (hj : j ≠ u.ticketHash) : s'.pools j = s.pools j := by
  unfold undoTicket at h
  split_ifs at h <;> simp only [bind_eq_ok, safePut_eq_ok, safeDelete_eq_ok, pure_eq_ok] at h
  all_goals
    first
    | obtain ⟨_, ⟨-, rfl⟩, rfl⟩ := h
    | obtain ⟨_, ⟨-, rfl⟩, _, ⟨-, rfl⟩, rfl⟩ := h
    simp [Node.pools, SameBut.erase _ j hj, SameBut.insert _ j hj]

/-- The log entry of a move undoes it, in every node whose pools for the ticket are those that the
move left. -/
theorem Move.undo (h : Move k x u y) {s : Node} (hs : s.pools k = y) :
    ∃ s', undoTicket s u = .ok s' ∧ s'.pools k = x ∧ ∀ j, j ≠ k → s'.pools j = s.pools j := by
  have hput : ∀ {t : TicketTreap} (v : Value), t[k]? = none → safePut t k v = .ok (t.insert k v) :=
    fun v ht => safePut_eq_ok.2 ⟨ht, rfl⟩
  have hdel : ∀ {t : TicketTreap} {v : Value}, t[k]? = some v → safeDelete t k = .ok (t.erase k) :=
    fun ht => safeDelete_eq_ok.2 ⟨⟨_, ht⟩, rfl⟩
  have hkey : u.ticketHash = k := by cases h <;> rfl
  suffices hrun : ∃ s', undoTicket s u = .ok s' ∧ s'.pools k = x by
    obtain ⟨s', hrun, hx⟩ := hrun
    exact ⟨s', hrun, hx, fun j hj => undoTicket_frame hrun (hkey ▸ hj)⟩
  have hl : s.liveTickets[k]? = y.1 := congrArg Prod.fst hs
  have hm : s.missedTickets[k]? = y.2.1 := congrArg (fun x => x.2.1) hs
  have hr : s.revokedTickets[k]? = y.2.2 := congrArg (fun x => x.2.2) hs
  cases h with
  | @voted v m r hv =>
    obtain ⟨_, _, _, _, _, _⟩ := v
    obtain ⟨rfl, rfl, rfl, rfl⟩ := hv
    exact ⟨_, by simp only [undoTicket, undoOf, value, hput _ hl]; rfl,
      by simp [Node.pools, hm, hr]⟩
  | @missed v r hv | @expired v r hv =>
    obtain ⟨_, _, _, _, _, _⟩ := v
    obtain ⟨rfl, rfl, rfl, rfl⟩ := hv
    exact ⟨_, by simp only [undoTicket, undoOf, value, hdel hm, hput _ hl]; rfl,
      by simp [Node.pools, hr]⟩
  | @revoked v l hmissed hrevoked =>
    obtain ⟨_, _, _, _, _, _⟩ := v
    obtain rfl := hmissed
    obtain rfl := hrevoked
    exact ⟨_, by simp only [undoTicket, undoOf, value, hdel hr, hput _ hm]; rfl,
      by simp [Node.pools, hl]⟩
  | @added v hv =>
    obtain ⟨_, _, _, _, _, _⟩ := v
    obtain ⟨rfl, rfl, rfl, rfl⟩ := hv
    exact ⟨_, by simp only [undoTicket, undoOf, hdel hl]; rfl, by simp [Node.pools, hm, hr]⟩

/-! ## The moves of a block -/

/-- `c'` is `c` after moves of distinct tickets, with the log entries `us`; nothing else changed. -/
structure Moved (c : Node) (us : List UndoTicketData) (c' : Node) : Prop where
  log : c'.databaseUndoUpdate = c.databaseUndoUpdate ++ us
  nodup : (us.map ticketHash).Nodup
  frame : ∀ k, k ∉ us.map ticketHash → c'.pools k = c.pools k
  move : ∀ u ∈ us, Move u.ticketHash (c.pools u.ticketHash) u (c'.pools u.ticketHash)
  height : c'.height = c.height
  keyHeight : c'.keyHeight = c.keyHeight
  blockTickets : c'.databaseBlockTickets = c.databaseBlockTickets
  nextWinners : c'.nextWinners = c.nextWinners
  finalState : c'.finalState = c.finalState

theorem Moved.refl (c : Node) : Moved c [] c :=
  ⟨by simp, by simp, by simp, by simp, rfl, rfl, rfl, rfl, rfl⟩

/-- Moves of distinct tickets, one list after the other. -/
theorem Moved.trans {c0 c1 c2 : Node} {us vs : List UndoTicketData} (h1 : Moved c0 us c1)
    (h2 : Moved c1 vs c2) (hdisj : Disjoint (us.map ticketHash) (vs.map ticketHash)) :
    Moved c0 (us ++ vs) c2 where
  log := by rw [h2.log, h1.log, append_assoc]
  nodup := by
    rw [map_append, nodup_append']
    exact ⟨h1.nodup, h2.nodup, hdisj⟩
  frame := by
    intro k hk
    rw [map_append, mem_append, not_or] at hk
    rw [h2.frame k hk.2, h1.frame k hk.1]
  move := by
    intro u hu
    rcases mem_append.1 hu with hu | hu
    · rw [h2.frame _ fun hk => hdisj (mem_map_of_mem hu) hk]
      exact h1.move u hu
    · rw [← h1.frame _ fun hk => hdisj hk (mem_map_of_mem hu)]
      exact h2.move u hu
  height := h2.height.trans h1.height
  keyHeight := h2.keyHeight.trans h1.keyHeight
  blockTickets := h2.blockTickets.trans h1.blockTickets
  nextWinners := h2.nextWinners.trans h1.nextWinners
  finalState := h2.finalState.trans h1.finalState

/-- The log of a block's moves reverses them. -/
theorem Moved.reverses (h : Moved c us c') : Reverses Node.pools ticketHash undoTicket c us c' :=
  ⟨h.nodup, h.frame, fun u hu _ hs => (h.move u hu).undo hs⟩

/-- Moves keep the pools of every ticket in order. -/
theorem Moved.ok (h : Moved c us c') (hc : ∀ k, (c.pools k).Ok) (k : Hash) : (c'.pools k).Ok := by
  by_cases hk : k ∈ us.map ticketHash
  · obtain ⟨u, hu, rfl⟩ := mem_map.1 hk
    exact (h.move u hu).ok (hc _)
  · rw [h.frame k hk]
    exact hc k

/-- A loop whose body makes one move of its ticket, whenever the ticket's pools satisfy `Q`, makes
the moves of all its tickets. The entries of the log satisfy `W`, which may mention the block's
heights. -/
theorem foldlM_moved {f : Node → Hash → Except Err Node} (Q : Pools → Prop)
    (W : ℕ → ℕ → UndoTicketData → Prop) (hstep : ∀ c t c', Q (c.pools t) → f c t = .ok c' →
      ∃ u, u.ticketHash = t ∧ W c.height c.keyHeight u ∧ Moved c [u] c')
    {ts : List Hash} (hnodup : ts.Nodup) (hQ : ∀ t ∈ ts, Q (c.pools t))
    (h : ts.foldlM f c = .ok c') :
    ∃ us, us.map ticketHash = ts ∧ (∀ u ∈ us, W c.height c.keyHeight u) ∧ Moved c us c' := by
  induction ts generalizing c with
  | nil =>
    rw [foldlM_nil_eq_ok] at h
    exact ⟨[], rfl, by simp, h ▸ Moved.refl c⟩
  | cons t ts ih =>
    rw [nodup_cons] at hnodup
    obtain ⟨c1, hf, hrest⟩ := foldlM_cons_eq_ok.1 h
    obtain ⟨u, rfl, hW, hmoved⟩ := hstep c t c1 (hQ t mem_cons_self) hf
    -- The tickets still to come are not the one just moved.
    have hQ' : ∀ t' ∈ ts, Q (c1.pools t') := by
      intro t' ht'
      have hne : t' ≠ u.ticketHash := fun heq => hnodup.1 (heq ▸ ht')
      rw [hmoved.frame t' (by simpa using hne)]
      exact hQ t' (mem_cons_of_mem _ ht')
    obtain ⟨us, rfl, hWs, hmoved'⟩ := ih hnodup.2 hQ' hrest
    rw [hmoved.height, hmoved.keyHeight] at hWs
    refine ⟨u :: us, rfl, ?_, hmoved.trans hmoved' ?_⟩
    · intro u' hu'
      rcases mem_cons.1 hu' with rfl | hu'
      · exact hW
      · exact hWs u' hu'
    · simpa using hnodup.1

/-! ## The bodies of the loops -/

/-- One ticket is moved. -/
theorem Moved.single {l m r : TicketTreap}
    (hc' : c' = { c with liveTickets := l, missedTickets := m, revokedTickets := r }.record k v)
    (hl : SameBut k c.liveTickets l) (hm : SameBut k c.missedTickets m)
      (hr : SameBut k c.revokedTickets r)
    (hmove : Move k (c.pools k) (undoOf k v) (l[k]?, m[k]?, r[k]?)) :
    Moved c [undoOf k v] c' where
  log := by rw [hc']; rfl
  nodup := by simp
  frame := by
    intro j hj
    have hne : j ≠ k := by simpa [undoOf] using hj
    rw [hc', Node.pools, Node.pools, ← hl j hne, ← hm j hne, ← hr j hne]
    rfl
  move := by
    intro u hu
    obtain rfl := mem_singleton.1 hu
    rw [hc']
    exact hmove
  height := by rw [hc']; rfl
  keyHeight := by rw [hc']; rfl
  blockTickets := by rw [hc']; rfl
  nextWinners := by rw [hc']; rfl
  finalState := by rw [hc']; rfl

/-- A winner is moved out of the live tickets, and is a winner of the log. -/
theorem connectWinner_moved {spent : List Hash}
    (hfresh : ∀ v, (c.pools t).1 = some v → v.Fresh) (h : connectWinner spent c t = .ok c') :
    ∃ u, u.ticketHash = t ∧ u.winner = [u.ticketHash] ∧ Moved c [u] c' := by
  unfold connectWinner at h
  simp only [bind_eq_ok, safeGet_eq_ok] at h
  obtain ⟨v, hv, h⟩ := h
  have hv' := hfresh v hv
  obtain ⟨hmissed, hrevoked, -, hexpired⟩ := hv'
  have hpools : c.pools t = (some v, c.missedTickets[t]?, c.revokedTickets[t]?) := by
    rw [Node.pools, hv]
  split_ifs at h with hspent
  · simp only [bind_eq_ok, safeDelete_eq_ok, pure_eq_ok] at h
    obtain ⟨_, ⟨-, rfl⟩, rfl⟩ := h
    refine ⟨_, rfl, ?_, Moved.single rfl (.erase _) (.refl _) (.refl _) ?_⟩
    · simp [winner, undoOf]
    · rw [hpools]
      simpa using Move.voted (hfresh v hv)
  · simp only [bind_eq_ok, safeDelete_eq_ok, safePut_eq_ok, pure_eq_ok] at h
    obtain ⟨_, ⟨-, rfl⟩, _, ⟨hm, rfl⟩, rfl⟩ := h
    refine ⟨_, rfl, ?_, Moved.single rfl (.erase _) (.insert _) (.refl _) ?_⟩
    · simp [winner, undoOf, hrevoked, hexpired]
    · rw [hpools, hm]
      simpa using Move.missed (hfresh v hv)

/-- An expired ticket is moved to the missed ones, and is no winner of the log. -/
theorem connectExpired_moved (hfresh : ∀ v, (c.pools t).1 = some v → v.Fresh)
    (h : connectExpired c t = .ok c') :
    ∃ u, u.ticketHash = t ∧ u.winner = [] ∧ Moved c [u] c' := by
  unfold connectExpired at h
  simp only [bind_eq_ok, safeGet_eq_ok, safeDelete_eq_ok, safePut_eq_ok, pure_eq_ok] at h
  obtain ⟨v, hv, _, ⟨-, rfl⟩, _, ⟨hm, rfl⟩, rfl⟩ := h
  refine ⟨_, rfl, ?_, Moved.single rfl (.erase _) (.insert _) (.refl _) ?_⟩
  · simp [winner, undoOf]
  · rw [Node.pools, hv, hm]
    simpa using Move.expired (hfresh v hv)

/-- A revoked ticket is moved out of the missed ones, and is no winner of the log. -/
theorem connectRevoked_moved (hok : (c.pools t).Ok) (h : connectRevoked c t = .ok c') :
    ∃ u, u.ticketHash = t ∧ u.winner = [] ∧ Moved c [u] c' := by
  unfold connectRevoked at h
  simp only [bind_eq_ok, safeGet_eq_ok, safeDelete_eq_ok, safePut_eq_ok, pure_eq_ok] at h
  obtain ⟨v, hv, _, ⟨-, rfl⟩, _, ⟨hr, rfl⟩, rfl⟩ := h
  obtain ⟨hmissed, hrevoked, -⟩ := hok.missed v hv
  refine ⟨_, rfl, ?_, Moved.single rfl (.refl _) (.erase _) (.insert _) ?_⟩
  · simp [winner, undoOf, hmissed]
  · rw [Node.pools, hv, hr]
    simpa using Move.revoked hmissed hrevoked

/-- A new ticket is moved from nowhere to the live ones, with the heights of the block, and is no
winner of the log. -/
theorem connectNew_moved (hnew : c.pools t = (none, none, none)) (h : connectNew c t = .ok c') :
    ∃ u, u.ticketHash = t ∧ (u.winner = [] ∧ u.ticketHeight = c.height ∧
      u.ticketKeyHeight = c.keyHeight) ∧ Moved c [u] c' := by
  unfold connectNew at h
  simp only [bind_eq_ok, safePut_eq_ok, pure_eq_ok] at h
  obtain ⟨_, ⟨-, rfl⟩, rfl⟩ := h
  refine ⟨_, rfl, ⟨?_, rfl, rfl⟩, Moved.single rfl (.insert _) (.refl _) (.refl _) ?_⟩
  · simp [winner, undoOf, Node.newValue]
  · have hm : c.missedTickets[t]? = none := congrArg (fun x => x.2.1) hnew
    have hr : c.revokedTickets[t]? = none := congrArg (fun x => x.2.2) hnew
    rw [hnew, hm, hr]
    simpa using Move.added (k := t) (v := c.newValue) ⟨rfl, rfl, rfl, rfl⟩

end Hcashd.Stake
