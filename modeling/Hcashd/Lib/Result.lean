import Mathlib

/-!
# Fallible computations

The functions of a validator run a sequence of checks and return the first error. Here they are
`Except` computations, and these lemmas take a successful run apart: a `bind` that succeeds is two
computations that succeed (`bind_eq_ok`), a guard that succeeds is the negation of its condition
(`rejectIf_eq_ok`), and a loop that succeeds carries any property that each of its steps carries
(`foldlM_invariant`), or is a success for each of its items (`forM_eq_ok`).
-/

namespace Hcashd.Lib

open List

universe u

variable {ε α β σ : Type u} {c : Prop} {e : ε}

/-- `if c { return e }`, as a computation that either stops with `e` or goes on. -/
def rejectIf {ε : Type u} (c : Prop) [Decidable c] (e : ε) : Except ε PUnit.{u + 1} :=
  if c then .error e else .ok ⟨⟩

/-- A guard lets a run go on exactly when its condition is false. -/
@[simp]
theorem rejectIf_eq_ok [Decidable c] {x : PUnit} : rejectIf c e = .ok x ↔ ¬ c := by
  unfold rejectIf
  split_ifs with h <;> simp [h]

variable {f : α → Except ε β} {a : α} {x : Except ε α}

/-- A sequence succeeds when its first part does and the rest succeeds on what it returned. -/
@[simp]
theorem bind_eq_ok {b : β} : (x >>= f) = .ok b ↔ ∃ a, x = .ok a ∧ f a = .ok b := by
  cases x <;> simp [bind, Except.bind]

/-- A guard stops a run with its own error, when its condition is true. -/
theorem rejectIf_eq_error [Decidable c] {e e' : ε} : rejectIf c e = .error e' ↔ c ∧ e = e' := by
  unfold rejectIf
  split_ifs with h <;> simp [h]

/-- A sequence fails in its first part, or in the rest. -/
theorem bind_eq_error : (x >>= f) = .error e ↔ x = .error e ∨ ∃ a, x = .ok a ∧ f a = .error e := by
  cases x <;> simp [bind, Except.bind]

theorem ok_bind : (Except.ok a >>= f) = f a := rfl

theorem rejectIf_bind [Decidable c] {f : PUnit → Except ε β} (h : ¬ c) :
    (rejectIf c e >>= f) = f ⟨⟩ := by
  rw [rejectIf, if_neg h, ok_bind]

@[simp]
theorem pure_eq_ok {a b : α} : (pure a : Except ε α) = .ok b ↔ a = b := by
  simp [pure, Except.pure]

variable {l : List α} {s t : σ}

section Loops

variable {f : σ → α → Except ε σ}

/-- A loop over a list of items, taken apart at its first item. -/
theorem foldlM_cons_eq_ok :
    (a :: l).foldlM f s = .ok t ↔ ∃ s', f s a = .ok s' ∧ l.foldlM f s' = .ok t := by
  rw [foldlM_cons, bind_eq_ok]

theorem foldlM_nil_eq_ok : ([] : List α).foldlM f s = .ok t ↔ s = t := by
  rw [foldlM_nil, pure_eq_ok]

/-- The invariant rule of a loop: what holds at its start and is kept by each step on an item of the
list holds at its end. -/
theorem foldlM_invariant (P : σ → Prop) (hstep : ∀ a ∈ l, ∀ s s', P s → f s a = .ok s' → P s')
    (hs : P s) (h : l.foldlM f s = .ok t) : P t := by
  induction l generalizing s with
  | nil =>
    rw [foldlM_nil_eq_ok] at h
    exact h ▸ hs
  | cons a l ih =>
    obtain ⟨s', hf, hl⟩ := foldlM_cons_eq_ok.1 h
    refine ih (fun b hb => hstep b (mem_cons_of_mem _ hb)) ?_ hl
    exact hstep a mem_cons_self s s' hs hf

/-- The frame rule of a loop: when one item only is able to change a part of the state, the loop
does to that part what the step for the item does. -/
theorem foldlM_part (part : σ → β)
    (hframe : ∀ b ∈ l, b ≠ a → ∀ s s', f s b = .ok s' → part s' = part s) (hnd : l.Nodup)
    (ha : a ∈ l) (h : l.foldlM f s = .ok t) :
    ∃ s1 s2, part s1 = part s ∧ f s1 a = .ok s2 ∧ part t = part s2 := by
  obtain ⟨l1, l2, rfl⟩ := append_of_mem ha
  have hne : ∀ b ∈ l1 ++ l2, b ≠ a := fun b hb hba =>
    (nodup_cons.1 (nodup_middle.1 hnd)).1 (hba ▸ hb)
  rw [foldlM_append, bind_eq_ok] at h
  obtain ⟨s1, hbefore, h⟩ := h
  obtain ⟨s2, hstep, hafter⟩ := foldlM_cons_eq_ok.1 h
  refine ⟨s1, s2, ?_, hstep, ?_⟩
  · refine foldlM_invariant (fun s' => part s' = part s) (fun b hb s' s'' hs' hf => ?_) rfl hbefore
    rw [hframe b (mem_append_left _ hb) (hne b (mem_append_left _ hb)) s' s'' hf, hs']
  · refine foldlM_invariant (fun s' => part s' = part s2) (fun b hb s' s'' hs' hf => ?_) rfl hafter
    rw [hframe b (mem_append_right _ (mem_cons_of_mem _ hb))
      (hne b (mem_append_right _ hb)) s' s'' hf, hs']

/-- A loop succeeds whose steps succeed from every state that the earlier ones lead to. -/
theorem exists_foldlM_eq_ok (P : σ → Prop) {s : σ}
    (hstep : ∀ a ∈ l, ∀ s, P s → ∃ s', f s a = .ok s' ∧ P s') (hs : P s) :
    ∃ t, l.foldlM f s = .ok t ∧ P t := by
  induction l generalizing s with
  | nil => exact ⟨s, rfl, hs⟩
  | cons a l ih =>
    obtain ⟨s', hf, hs'⟩ := hstep a mem_cons_self s hs
    obtain ⟨t, hl, ht⟩ := ih (fun b hb => hstep b (mem_cons_of_mem _ hb)) hs'
    exact ⟨t, foldlM_cons_eq_ok.2 ⟨s', hf, hl⟩, ht⟩

/-- A loop does what another one does whose turns it can make. -/
theorem foldlM_eq_of_turns {g : σ → α → Except ε σ}
    (hturn : ∀ a s s', f s a = .ok s' → g s a = .ok s')
    (h : l.foldlM f s = .ok t) : l.foldlM g s = .ok t := by
  induction l generalizing s with
  | nil => exact h
  | cons a l ih =>
    obtain ⟨s', hf, hl⟩ := foldlM_cons_eq_ok.1 h
    exact foldlM_cons_eq_ok.2 ⟨s', hturn a s s' hf, ih hl⟩

/-- The sum rule of a loop: where each step adds what its item says, the loop adds the sum. -/
theorem foldlM_sum (m : σ → ℕ) (g : α → ℕ)
    (hstep : ∀ a ∈ l, ∀ s s', f s a = .ok s' → m s' = m s + g a) (h : l.foldlM f s = .ok t) :
    m t = m s + (l.map g).sum := by
  induction l generalizing s with
  | nil =>
    rw [foldlM_nil_eq_ok] at h
    simp [h]
  | cons a l ih =>
    obtain ⟨s', hf, hl⟩ := foldlM_cons_eq_ok.1 h
    rw [ih (fun b hb => hstep b (mem_cons_of_mem _ hb)) hl, hstep a mem_cons_self s s' hf,
      map_cons, sum_cons, Nat.add_assoc]

end Loops

/-- A loop that only checks its items succeeds when each check does. -/
theorem forM_eq_ok {f : α → Except ε PUnit.{u + 1}} {x : PUnit} :
    l.forM f = .ok x ↔ ∀ a ∈ l, f a = .ok ⟨⟩ := by
  induction l with
  | nil => simp [List.forM, pure, Except.pure]
  | cons a l ih =>
    rw [List.forM, bind_eq_ok, forall_mem_cons, ← ih]
    exact ⟨fun ⟨_, ha, hl⟩ => ⟨ha, hl⟩, fun ⟨ha, hl⟩ => ⟨_, ha, hl⟩⟩

/-- The value of a computation that succeeds. -/
def valueOf {x : Except ε α} (h : x.isOk = true) : α :=
  match x, h with
  | .ok a, _ => a

/-- A success has its value. -/
theorem eq_ok_valueOf (h : x.isOk = true) : x = .ok (valueOf h) := by
  cases x with
  | ok a => rfl
  | error e => nomatch h

/-- Whether a computation succeeds with a property of its result is decided by running it. -/
instance decidableExistsOk {P : α → Prop} [DecidablePred P] :
    (x : Except ε α) → Decidable (∃ a, x = .ok a ∧ P a)
  | .ok a => decidable_of_iff (P a) (by simp)
  | .error _ => .isFalse (by simp)

/-- Whether the result of a computation, if it succeeds, has a property is decided by running it. -/
instance decidableForallOk {P : α → Prop} [DecidablePred P] :
    (x : Except ε α) → Decidable (∀ a, x = .ok a → P a)
  | .ok a => decidable_of_iff (P a) (by simp)
  | .error _ => .isTrue (by simp)

/-- Whether a computation fails with an error is decided by running it. -/
instance decidableEqError [DecidableEq ε] (e : ε) : (x : Except ε α) → Decidable (x = .error e)
  | .ok _ => .isFalse (by simp)
  | .error e' => decidable_of_iff (e' = e) (by simp)

end Hcashd.Lib
