import Mathlib

/-!
# Connection requests

The connection manager of `connmanager.go`. Calls of `Connect` and `NewConnReq` dial on their own
and send what came of it to `connHandler`, as `Disconnect` and `Remove` do with theirs. The channel
keeps no order, so the handler takes any message that is being sent, and a timer fires at any time
after it was set.

A permanent request that was passed to `Connect` is to be dialled, established or waiting for a
retry at every moment. It moves from one to the next and is never in two of them, but a connection
that is closed while `TargetOutbound` others are open is given up, permanent or not (`kept_iff`).
-/

namespace Hcashd.Connmgr

/-- `Config`, as far as `connHandler` reads it. -/
structure Config where
  targetOutbound : ℕ
  /-- `GetNewAddress` is not nil. -/
  hasNewAddress : Bool

/-- What is sent to `connHandler` about the request with an id. -/
inductive Message where
  | handleConnected (id : ℕ)
  | handleDisconnected (id : ℕ) (retry : Bool)
  | handleFailed (id : ℕ)
  deriving DecidableEq

/-- Requests go by their ids, which they get when they are first connected. -/
structure ConnManager where
  connReqCount : ℕ
  permanent : ℕ → Bool
  /-- Calls of `NewConnReq` that have not begun. -/
  newConnReqs : ℕ
  dialing : List ℕ
  requests : List Message
  conns : Finset ℕ
  /-- Timers that call `Connect`. -/
  retrying : List ℕ

/-- The calls, the results of dials, the timers and the messages. -/
inductive Event where
  | connect (permanent : Bool)
  /-- `NewConnReq`, which finds an address or not. -/
  | newConnReq (found : Bool)
  | dialed (id : ℕ) (ok : Bool)
  | retry (id : ℕ)
  | disconnect (id : ℕ)
  | remove (id : ℕ)
  | handle (msg : Message)

variable (cfg : Config)

/-- `Start`. -/
def start : ConnManager := ⟨0, fun _ => false, cfg.targetOutbound, [], [], ∅, []⟩

namespace ConnManager

variable (cm : ConnManager)

/-- `handleFailedConn`: a permanent request is retried, another one is replaced. -/
def handleFailedConn (id : ℕ) : ConnManager :=
  if cm.permanent id then { cm with retrying := id :: cm.retrying }
  else if cfg.hasNewAddress then { cm with newConnReqs := cm.newConnReqs + 1 }
  else cm

/-- The loop of `connHandler`. -/
def connHandler : Message → ConnManager
  | .handleConnected id => { cm with conns := insert id cm.conns }
  | .handleDisconnected id retry =>
    if id ∈ cm.conns then
      let cm := { cm with conns := cm.conns.erase id }
      if cm.conns.card % 2^32 < cfg.targetOutbound ∧ retry then cm.handleFailedConn cfg id else cm
    else cm
  | .handleFailed id => cm.handleFailedConn cfg id

/-- A request gets the next id. -/
def newReq (permanent : Bool) : ConnManager :=
  { cm with
    connReqCount := cm.connReqCount + 1
    permanent := Function.update cm.permanent (cm.connReqCount + 1) permanent }

/-- One event; none where it cannot happen. -/
def step : Event → Option ConnManager
  | .connect permanent =>
    some { cm.newReq permanent with dialing := (cm.connReqCount + 1) :: cm.dialing }
  | .newConnReq found =>
    if cm.newConnReqs = 0 then none
    else
      let cm := { cm with newConnReqs := cm.newConnReqs - 1 }
      if !cfg.hasNewAddress then some cm
      else if found
        then some { cm.newReq false with dialing := (cm.connReqCount + 1) :: cm.dialing }
      else some { cm.newReq false with
        requests := .handleFailed (cm.connReqCount + 1) :: cm.requests }
  | .dialed id ok =>
    if id ∈ cm.dialing then
      some { cm with
        dialing := cm.dialing.erase id
        requests := (if ok then .handleConnected id else .handleFailed id) :: cm.requests }
    else none
  | .retry id =>
    if id ∈ cm.retrying then
      some { cm with retrying := cm.retrying.erase id, dialing := id :: cm.dialing }
    else none
  | .disconnect id => some { cm with requests := .handleDisconnected id true :: cm.requests }
  | .remove id => some { cm with requests := .handleDisconnected id false :: cm.requests }
  | .handle msg =>
    if msg ∈ cm.requests
      then some ({ cm with requests := cm.requests.erase msg }.connHandler cfg msg) else none

/-- In how many places a request is: dialled, with a message about it on its way or not,
established, or waiting. -/
def places (id : ℕ) : ℕ :=
  cm.dialing.count id + cm.requests.count (.handleConnected id) +
    cm.requests.count (.handleFailed id) +
    (if id ∈ cm.conns then 1 else 0) + cm.retrying.count id

/-- A connection is closed by `Disconnect`, while fewer than `TargetOutbound` others are open. -/
def Keeps (id : ℕ) : Event → Prop
  | .handle (.handleDisconnected id' retry) => id' = id → id ∈ cm.conns →
      (cm.conns.erase id).card % 2^32 < cfg.targetOutbound ∧ retry = true
  | _ => True

end ConnManager

/-- The managers that events lead to, each of which meets a condition. -/
inductive Reached (P : ConnManager → Event → Prop) : ConnManager → Prop
  | start : Reached P (start cfg)
  | step {cm cm' : ConnManager} {event : Event} :
      Reached P cm → P cm event → cm.step cfg event = some cm' →
      Reached P cm'

open ConnManager

variable {cfg} {cm cm' : ConnManager} {id : ℕ} {event : Event}

/-- Ids are given in order, and a permanent request is in one place. -/
structure Inv (cm : ConnManager) (id : ℕ) : Prop where
  fresh : cm.connReqCount < id → cm.permanent id = false ∧ cm.places id = 0
  kept : cm.permanent id = true → cm.places id = 1

/-- An event that does not concern the request. -/
theorem Inv.of_places (h : Inv cm id) (hcount : cm'.connReqCount = cm.connReqCount)
    (hpermanent : cm'.permanent = cm.permanent)
    (hplaces : cm.permanent id = true ∨ cm.connReqCount < id → cm'.places id = cm.places id) :
    Inv cm' id where
  fresh := fun hid => by
    rw [hcount] at hid
    rw [hpermanent, hplaces (.inr hid)]
    exact h.fresh hid
  kept := fun hid => by
    rw [hpermanent] at hid
    rw [hplaces (.inl hid)]
    exact h.kept hid

/-- A new request. -/
theorem Inv.newReq (h : Inv cm id) {p : Bool} (hcount : cm'.connReqCount = cm.connReqCount + 1)
    (hpermanent : cm'.permanent = Function.update cm.permanent (cm.connReqCount + 1) p)
    (hplaces : cm'.places id = cm.places id + if cm.connReqCount + 1 = id then 1 else 0) :
    Inv cm' id := by
  have hfresh := h.fresh
  have hkept := h.kept
  by_cases hid : cm.connReqCount + 1 = id
  · subst hid
    rw [if_pos rfl, (hfresh (Nat.lt_succ_self _)).2] at hplaces
    exact ⟨fun hlt => absurd hlt (by omega), fun _ => hplaces⟩
  · rw [if_neg hid, Nat.add_zero] at hplaces
    have hsame :
        cm'.permanent id =
          cm.permanent id := by rw [hpermanent, Function.update_of_ne (Ne.symm hid)]
    refine ⟨fun hlt => ?_, fun hper => ?_⟩
    · rw [hsame, hplaces]
      exact hfresh (by omega)
    · rw [hplaces]
      exact hkept (hsame ▸ hper)

/-- A failed request is dialled again iff it is permanent. -/
theorem places_handleFailedConn (cfg : Config) (cm : ConnManager) (id id' : ℕ) :
    (cm.handleFailedConn cfg id').places id =
      cm.places id + if id' = id ∧ cm.permanent id = true then 1 else 0 := by
  simp only [handleFailedConn, places]
  grind

/-- The handler counts no request. -/
theorem frame_connHandler (cfg : Config) (cm : ConnManager) (msg : Message) :
    (cm.connHandler cfg msg).connReqCount = cm.connReqCount ∧
    (cm.connHandler cfg msg).permanent = cm.permanent := by
  cases msg <;> grind [connHandler, handleFailedConn]

/-- Every event keeps the invariant. -/
theorem Inv.step (h : Inv cm id) (hkeeps : cm.Keeps cfg id event)
    (hstep : cm.step cfg event = some cm') : Inv cm' id := by
  cases event with
  | connect p =>
    cases hstep
    exact h.newReq rfl rfl (by simp only [places, ConnManager.newReq, List.count_cons]; grind)
  | newConnReq found =>
    simp only [ConnManager.step] at hstep
    split_ifs at hstep <;> cases hstep
    · exact h.of_places rfl rfl fun _ => rfl
    · exact h.newReq rfl rfl (by simp only [places, ConnManager.newReq, List.count_cons]; grind)
    · exact h.newReq rfl rfl (by simp only [places, ConnManager.newReq, List.count_cons]; grind)
  | dialed id' ok =>
    simp only [ConnManager.step] at hstep
    split_ifs at hstep with hmem hok <;> cases hstep
    all_goals
      refine h.of_places rfl rfl fun _ => ?_
      have := List.count_pos_iff.2 hmem
      simp only [places, List.count_cons, List.count_erase]
      grind
  | retry id' =>
    simp only [ConnManager.step] at hstep
    split_ifs at hstep with hmem
    cases hstep
    refine h.of_places rfl rfl fun _ => ?_
    have := List.count_pos_iff.2 hmem
    simp only [places, List.count_cons, List.count_erase]
    grind
  | disconnect | remove =>
    cases hstep
    exact h.of_places rfl rfl fun _ => by simp [places]
  | handle msg =>
    simp only [ConnManager.step] at hstep
    split_ifs at hstep with hmem
    cases hstep
    have hsent := List.count_pos_iff.2 hmem
    refine h.of_places (frame_connHandler cfg _ msg).1 (frame_connHandler cfg _ msg).2 fun hid => ?_
    -- before the message is handled a permanent request is in one place
    have hplaces : cm.places id = if cm.permanent id = true then 1 else 0 := by
      have hkept := h.kept
      have hfresh := h.fresh
      grind
    cases msg with
    | handleConnected id' =>
      simp only [places, connHandler, List.count_erase, Finset.mem_insert] at hplaces ⊢
      grind
    | handleDisconnected id' retry =>
      simp only [Keeps] at hkeeps
      simp only [connHandler]
      split_ifs with hconns hroom
      · rw [places_handleFailedConn]
        simp only [places, List.count_erase, Finset.mem_erase] at hplaces ⊢
        grind
      · simp only [places, List.count_erase, Finset.mem_erase] at hplaces ⊢
        grind
      · simp [places]
    | handleFailed id' =>
      rw [connHandler, places_handleFailedConn]
      simp only [places, List.count_erase] at hplaces ⊢
      grind

/-- Every state that is reached has the invariant. -/
theorem Inv.of_reached (h : Reached cfg (·.Keeps cfg id) cm) : Inv cm id := by
  induction h with
  | start => exact ⟨fun _ => ⟨rfl, rfl⟩, fun h => nomatch h⟩
  | step _ hkeeps hstep ih => exact ih.step hkeeps hstep

/-- As long as every step keeps a permanent request, it is in one place, and a step leaves it there
exactly if it is one that keeps it. -/
theorem kept_iff (h : Reached cfg (·.Keeps cfg id) cm) :
    (cm.permanent id = true → cm.places id = 1) ∧ ∀ event cm', cm.step cfg event = some cm' →
    cm'.permanent id = true →
      (cm'.places id = 1 ↔ cm.Keeps cfg id event) := by
  have hinv := Inv.of_reached h
  refine ⟨hinv.kept, fun event cm' hstep hid =>
    ⟨fun hplaces => ?_, fun hkeeps => (hinv.step hkeeps hstep).kept hid⟩⟩
  cases event with
  | handle msg => cases msg with
    | handleDisconnected id' retry =>
      rintro rfl hconns
      simp only [ConnManager.step] at hstep
      split_ifs at hstep with hmem
      cases hstep
      rw [(frame_connHandler cfg _ _).2] at hid
      have hkept := hinv.kept hid
      by_contra hnot
      simp only [places, connHandler, if_pos hconns, if_neg hnot, List.count_erase] at hplaces hkept
      grind
    | _ => trivial
  | _ => trivial

instance (cm : ConnManager) : Decidable (cm.Keeps cfg id event) := by
  unfold Keeps
  split <;> infer_instance

/-- A step that is only taken where it keeps a request. -/
def keepStep (cfg : Config) (id : ℕ) (cm : ConnManager) (event : Event) : Option ConnManager :=
  if cm.Keeps cfg id event then cm.step cfg event else none

theorem Reached.foldlM_keepStep {events : List Event} (h : Reached cfg (·.Keeps cfg id) cm)
    (hrun : events.foldlM (keepStep cfg id) cm = some cm') : Reached cfg (·.Keeps cfg id) cm' := by
  induction events generalizing cm with
  | nil =>
    cases hrun
    exact h
  | cons event events ih =>
    rw [List.foldlM_cons] at hrun
    obtain ⟨cm1, hstep, hrun⟩ := Option.bind_eq_some_iff.1 hrun
    unfold keepStep at hstep
    split_ifs at hstep with hkeeps
    exact ih (.step h hkeeps hstep) hrun

/-- A permanent request is established, disconnected and dialled again by its timer. -/
theorem kept_connected : ∃ cm, Reached ⟨8, true⟩ (·.Keeps ⟨8, true⟩ 1) cm ∧ cm.permanent 1 = true ∧
    cm.requests = [.handleConnected 1] ∧ cm.places 1 = 1 := by
  have hrun : (([.connect true, .dialed 1 true, .handle (.handleConnected 1), .disconnect 1,
      .handle (.handleDisconnected 1 true), .retry 1, .dialed 1 true] : List Event).foldlM
        (keepStep ⟨8, true⟩ 1) (start ⟨8, true⟩)).map (fun cm => (cm.permanent 1, cm.requests)) =
          some (true, [Message.handleConnected 1]) := by
    decide +kernel
  obtain ⟨cm, hcm, hend⟩ := Option.map_eq_some_iff.1 hrun
  obtain ⟨hid, hrequests⟩ := Prod.mk.inj hend
  have h := Reached.start.foldlM_keepStep hcm
  exact ⟨cm, h, hid, hrequests, (kept_iff h).1 hid⟩

/-- Two permanent requests are established, and one of them is given up when its connection is
closed. -/
theorem exists_forgotten :
    (([.connect true, .connect true, .dialed 1 true, .dialed 2 true, .handle (.handleConnected 1),
    .handle (.handleConnected 2), .disconnect 1, .handle (.handleDisconnected 1 true)] :
      List Event).foldlM (ConnManager.step ⟨1, true⟩) (start ⟨1, true⟩)).map
        (fun cm => (cm.permanent 1, cm.places 1)) = some (true, 0) := by
  decide +kernel

end Hcashd.Connmgr
