import Hcashd.Lib.Result

/-!
# Calls that give up a lock

A call works on a shared state under a lock, and may give the lock up and take it again: between two
of its turns other calls can change the state. `Call` is the monad of such calls. A call that fails
keeps what it has done to the state so far.

`Call.run` is a call that nobody interrupts. `run_bind` and its special cases take such a run apart,
and `Call.Keeps` has the rules for what a call keeps of the state, whether it succeeds or not.
-/

namespace Hcashd.Lib

variable {ε σ α β : Type}

/-- What a call does until it gives up the lock or returns. -/
inductive Turn (ε σ α : Type)
  | done (s : σ) (result : Except ε α)
  | release (s : σ) (resume : σ → Turn ε σ α)

/-- A call, from the state in which it takes the lock. -/
def Call (ε σ α : Type) : Type := σ → Turn ε σ α

/-- What follows on a turn, unless it fails. -/
def Turn.bind : Turn ε σ α → (α → Call ε σ β) → Turn ε σ β
  | .done s (.ok a), f => f a s
  | .done s (.error e), _ => .done s (.error e)
  | .release s resume, f => .release s fun s => (resume s).bind f

/-- The rest of a call that nobody interrupts. -/
def Turn.run : Turn ε σ α → σ × Except ε α
  | .done s result => (s, result)
  | .release s resume => (resume s).run

namespace Call

instance : Monad (Call ε σ) where
  pure a := fun s => .done s (.ok a)
  bind x f := fun s => (x s).bind f

/-- The state that a call finds. -/
def get : Call ε σ σ := fun s => .done s (.ok s)

/-- Leaves another state. -/
def set (s : σ) : Call ε σ PUnit := fun _ => .done s (.ok ⟨⟩)

/-- A computation that does not change the state. -/
def lift (x : Except ε α) : Call ε σ α := fun s => .done s x

/-- Gives up the lock, and takes it again. -/
def release : Call ε σ PUnit := fun s => .release s fun s => .done s (.ok ⟨⟩)

/-- A call that nobody interrupts. -/
def run (x : Call ε σ α) (s : σ) : σ × Except ε α := (x s).run

end Call

/-- A turn, and then the rest of the call. -/
theorem Turn.run_bind (t : Turn ε σ α) (f : α → Call ε σ β) : (t.bind f).run = match t.run with
      | (s, .ok a) => (f a).run s
      | (s, .error e) => (s, .error e) := by
  induction t with
  | done s result => cases result <;> rfl
  | release s resume ih => exact ih s

namespace Call

variable {x : Call ε σ α} {f : α → Call ε σ β} {s s' : σ} {g : α → β}

/-- A sequence runs its second part where the first one has returned. -/
theorem run_bind : (x >>= f).run s = match x.run s with
    | (s, .ok a) => (f a).run s
    | (s, .error e) => (s, .error e) := Turn.run_bind (x s) f

/-- After a success the rest runs. -/
theorem run_bind_of_ok {a : α} (h : x.run s = (s', .ok a)) : (x >>= f).run s = (f a).run s' := by
  rw [run_bind, h]

/-- After a failure the state stays. -/
theorem run_bind_of_error {e : ε} (h : x.run s = (s', .error e)) :
    (x >>= f).run s = (s', .error e) := by
  rw [run_bind, h]

/-- What is only returned does not change the state. -/
@[simp]
theorem fst_run_bind_pure : ((x >>= fun a => pure (g a)).run s).1 = (x.run s).1 := by
  rw [run_bind]
  cases x.run s with
  | mk s' result => cases result <;> rfl

/-- What is only returned does not fail. -/
theorem error_run_bind_pure_iff :
    (∃ e, ((x >>= fun a => pure (g a)).run s).2 = .error e) ↔ ∃ e, (x.run s).2 = .error e := by
  rw [run_bind]
  cases x.run s with
  | mk s' result =>
    cases result with
    | ok a => constructor <;> rintro ⟨e, he⟩ <;> exact nomatch he
    | error e => exact ⟨fun _ => ⟨e, rfl⟩, fun _ => ⟨e, rfl⟩⟩

@[simp]
theorem run_get_bind {f : σ → Call ε σ β} : (get >>= f).run s = (f s).run s := rfl

@[simp]
theorem run_set_bind {f : PUnit → Call ε σ β} : (set s' >>= f).run s = (f ⟨⟩).run s' := rfl

@[simp]
theorem run_release_bind {f : PUnit → Call ε σ β} : (release >>= f).run s = (f ⟨⟩).run s := rfl

@[simp]
theorem run_lift_ok_bind {a : α} : ((lift (.ok a) : Call ε σ α) >>= f).run s = (f a).run s := rfl

@[simp]
theorem run_lift_error_bind {e : ε} :
    ((lift (.error e) : Call ε σ α) >>= f).run s = (s, .error e) := rfl

/-- The state that a call keeps a property of, whether it succeeds or not. -/
def Keeps (I : σ → Prop) (x : Call ε σ α) : Prop := ∀ s, I s → I (x.run s).1

section Keeps

variable {I : σ → Prop}

theorem keeps_pure (a : α) : Keeps I (pure a : Call ε σ α) := fun _ h => h

/-- Two steps that keep the invariant. -/
theorem Keeps.bind (hx : Keeps I x) (hf : ∀ a, Keeps I (f a)) : Keeps I (x >>= f) := by
  intro s hs
  have hx' := hx s hs
  rw [run_bind]
  cases h : x.run s with
  | mk s' result =>
    rw [h] at hx'
    cases result with
    | ok a => exact hf a s' hx'
    | error e => exact hx'

/-- A loop keeps what each of its turns keeps. -/
theorem Keeps.foldlM {f : β → α → Call ε σ β} {l : List α} {b : β}
    (hf : ∀ a ∈ l, ∀ b, Keeps I (f b a)) :
    Keeps I (l.foldlM f b) := by
  induction l generalizing b with
  | nil => exact keeps_pure b
  | cons a l ih =>
    rw [List.foldlM_cons]
    exact (hf a List.mem_cons_self b).bind fun b => ih fun a ha => hf a (List.mem_cons_of_mem _ ha)

end Keeps

end Call

end Hcashd.Lib
