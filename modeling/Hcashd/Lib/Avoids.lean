import Hcashd.Lib.Result

/-!
# Computations that avoid an error

A computation avoids an error if it ends with a result or with another error. A sequence avoids what
each of its parts avoids, where a part has to avoid it only after what the parts before it return
(`avoids_bind`), and a loop avoids it if each turn does that the loop comes to
(`avoids_forM_of_eq`). Reading a list at an index, or a piece of it, fails only beyond its end
(`index_of_lt`, `slice_of_le`).
-/

namespace Hcashd.Lib

open List

universe u

variable {ε α β : Type u}

/-- A computation does not end with an error. -/
def Avoids (e : ε) (x : Except ε α) : Prop := x ≠ .error e

variable {e e' : ε} {c : Prop}

@[simp]
theorem avoids_ok (a : α) : Avoids e (.ok a : Except ε α) := by simp [Avoids]

@[simp]
theorem avoids_pure (a : α) : Avoids e (pure a : Except ε α) := avoids_ok a

@[simp]
theorem avoids_error : Avoids e (.error e' : Except ε α) ↔ e' ≠ e := by
  rw [Avoids, ne_eq, Except.error.injEq]

theorem avoids_rejectIf [Decidable c] : Avoids e (rejectIf c e') ↔ c → e' ≠ e := by
  rw [Avoids, ne_eq, rejectIf_eq_error, not_and]

/-- A guard with another error. -/
@[simp]
theorem avoids_rejectIf_of_ne [Decidable c] (h : e' ≠ e) : Avoids e (rejectIf c e') :=
  avoids_rejectIf.2 fun _ => h

variable {f : α → Except ε β} {x : Except ε α}

/-- A sequence avoids an error if its first part does, and the rest does on what it returns. -/
theorem avoids_bind : Avoids e (x >>= f) ↔ Avoids e x ∧ ∀ a, x = .ok a → Avoids e (f a) := by
  rw [Avoids, ne_eq, bind_eq_error, not_or, not_exists]
  exact and_congr_right fun _ => forall_congr' fun _ => not_and

/-- Sequences with one first part are equal if what follows is, where the first part returns. -/
theorem bind_congr_ok {f g : α → Except ε β} (h : ∀ a, x = .ok a → f a = g a) :
    (x >>= f) = (x >>= g) := by
  cases x with
  | error e => rfl
  | ok a => exact h a rfl

/-- A guard with another error, and what follows where it lets a run go on. -/
@[simp]
theorem avoids_rejectIf_bind [Decidable c] {f : PUnit → Except ε β} (h : e' ≠ e) :
    Avoids e (rejectIf c e' >>= f) ↔ (¬ c → Avoids e (f ⟨⟩)) := by
  rw [avoids_bind, and_iff_right (avoids_rejectIf_of_ne h)]
  simp only [rejectIf_eq_ok]
  exact ⟨fun hf hc => hf ⟨⟩ hc, fun hf a hc => hf hc⟩

/-- A part that avoids an error under a condition, and then is another computation, with what
follows on it. -/
theorem avoids_bind_of_eq {x y : Except ε α} {C : Prop} (hx : Avoids e x ↔ C) (heq : C → x = y) :
    Avoids e (x >>= f) ↔ C ∧ ∀ a, y = .ok a → Avoids e (f a) := by
  rw [avoids_bind, hx]
  exact and_congr_right fun hC => by rw [heq hC]

section Loops

variable {f g : α → Except ε PUnit} {P : α → Prop} {l : List α}

/-- A loop whose turns avoid an error under a condition, and then are those of another loop. -/
theorem avoids_forM_of_eq (hf : ∀ a, Avoids e (f a) ↔ P a) (heq : ∀ a, P a → f a = g a) :
    Avoids e (l.forM f) ↔ ∀ l1 a l2, l = l1 ++ a :: l2 → (∀ b ∈ l1, g b = .ok ⟨⟩) → P a := by
  induction l with
  | nil =>
    refine iff_of_true (avoids_ok _) fun l1 a l2 h => ?_
    exact absurd h (by simp)
  | cons b l ih =>
    rw [List.forM, avoids_bind_of_eq (hf b) (heq b), ih]
    constructor
    · rintro ⟨hfirst, hrest⟩ l1 a l2 hl hdone
      rcases cons_eq_append_iff.1 hl with ⟨rfl, ha⟩ | ⟨l1, rfl, -⟩
      · obtain ⟨rfl, -⟩ := cons.inj ha
        exact hfirst
      · rw [forall_mem_cons] at hdone
        exact hrest ⟨⟩ hdone.1 l1 a l2 (cons.inj hl).2 hdone.2
    · intro h
      refine ⟨h [] b l rfl (by simp), fun x hx l1 a l2 hl hdone => ?_⟩
      exact h (b :: l1) a l2 (by rw [hl, cons_append]) (forall_mem_cons.2 ⟨hx, hdone⟩)

/-- Loops agree that agree up to the first failure. -/
theorem forM_eq_of_forall (heq : ∀ a, P a → f a = g a)
    (h : ∀ l1 a l2, l = l1 ++ a :: l2 → (∀ b ∈ l1, g b = .ok ⟨⟩) → P a) : l.forM f = l.forM g := by
  induction l with
  | nil => rfl
  | cons b l ih =>
    rw [List.forM, List.forM, heq b (h [] b l rfl (by simp))]
    cases hb : g b with
    | error e => rfl
    | ok x =>
      refine ih fun l1 a l2 hl hdone => ?_
      exact h (b :: l1) a l2 (by rw [hl, cons_append]) (forall_mem_cons.2 ⟨hb, hdone⟩)

/-- A loop avoids an error if each of its turns does. -/
@[simp]
theorem avoids_forM_of_forall (h : ∀ a ∈ l, Avoids e (f a)) : Avoids e (forM l f) :=
  (avoids_forM_of_eq (fun _ => Iff.rfl) (fun _ _ => rfl)).2 fun l1 a l2 hl _ =>
    h a (by rw [hl]; exact mem_append_right _ mem_cons_self)

end Loops

/-- A loop that collects results avoids an error if each of its turns does. -/
theorem avoids_mapM_of_forall {l : List α} (h : ∀ a ∈ l, Avoids e (f a)) : Avoids e (l.mapM f) := by
  induction l with
  | nil => exact avoids_ok _
  | cons a l ih =>
    rw [forall_mem_cons] at h
    rw [mapM_cons, avoids_bind]
    refine ⟨h.1, fun b _ => avoids_bind.2 ⟨ih h.2, fun bs _ => avoids_pure _⟩⟩

/-- A loop with a state avoids an error if each of its turns does. -/
theorem avoids_foldlM_of_forall {σ : Type u} {f : σ → α → Except ε σ} (h : ∀ s a, Avoids e (f s a))
    (l : List α) (s : σ) :
    Avoids e (l.foldlM f s) := by
  induction l generalizing s with
  | nil => exact avoids_ok s
  | cons a l ih =>
    rw [foldlM_cons, avoids_bind]
    exact ⟨h s a, fun s' _ => ih s'⟩

/-! ## Reading lists -/

/-- The element of a list at an index, or an error. -/
def index (e : ε) (l : List α) (i : ℕ) : Except ε α := match l[i]? with
  | some a => .ok a
  | none => .error e

/-- The elements of a list from an index to another, or an error. -/
def slice (e : ε) (l : List α) (lo hi : ℕ) : Except ε (List α) :=
  if lo ≤ hi ∧ hi ≤ l.length then .ok ((l.take hi).drop lo) else .error e

/-- The list with an element put in at an index, or an error. -/
def store (e : ε) (l : List α) (i : ℕ) (a : α) : Except ε (List α) :=
  if i < l.length then .ok (l.set i a) else .error e

variable {l : List α} {i lo hi : ℕ} {a : α}

theorem index_eq_ok : index e l i = .ok a ↔ l[i]? = some a := by
  unfold index
  cases l[i]? <;> simp

theorem index_of_lt (h : i < l.length) : index e l i = .ok l[i] :=
  index_eq_ok.2 (getElem?_eq_getElem h)

/-- A slice inside the list. -/
theorem slice_of_le (hlo : lo ≤ hi) (hhi : hi ≤ l.length) :
    slice e l lo hi = .ok ((l.take hi).drop lo) :=
  if_pos ⟨hlo, hhi⟩

theorem store_of_lt (h : i < l.length) : store e l i a = .ok (l.set i a) := if_pos h

end Hcashd.Lib
