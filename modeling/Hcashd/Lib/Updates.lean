import Mathlib

/-!
# Writing a list of updates into a map

A store is brought up to date by going through a list of keyed updates, each of which puts a value
at its key or removes the key. When no key occurs twice, the order of the list does not matter, and
what is at a key afterwards is what its update says, or what was there before
(`getElem?_applyUpdates`). A map that holds the pairs of a list (`Holds`) holds the longer list
after the new pairs are put, and the shorter one again after their keys are removed.
-/

namespace Hcashd.Lib

open List Std.ExtTreeMap

universe u v

variable {κ : Type u} {α : Type v} [Ord κ] [Std.TransOrd κ] [Std.LawfulEqOrd κ]

/-- One update: put a value at a key, or remove the key. -/
def applyUpdate (m : Std.ExtTreeMap κ α) (u : κ × Option α) : Std.ExtTreeMap κ α :=
  match u.2 with
  | none => m.erase u.1
  | some a => m.insert u.1 a

/-- The updates of a list, from its first on. -/
def applyUpdates (m : Std.ExtTreeMap κ α) (us : List (κ × Option α)) : Std.ExtTreeMap κ α :=
  us.foldl applyUpdate m

/-- One update. -/
theorem getElem?_applyUpdate [DecidableEq κ] (m : Std.ExtTreeMap κ α) (u : κ × Option α) (k : κ) :
    (applyUpdate m u)[k]? = if u.1 = k then u.2 else m[k]? := by
  obtain ⟨k', a⟩ := u
  cases a with
  | none => simp [applyUpdate, getElem?_erase]
  | some a => simp [applyUpdate, Std.ExtTreeMap.getElem?_insert]

/-- A key that no update names keeps its value. -/
theorem getElem?_applyUpdates_of_not_mem {us : List (κ × Option α)} {k : κ}
    (h : k ∉ us.map Prod.fst) (m : Std.ExtTreeMap κ α) : (applyUpdates m us)[k]? = m[k]? := by
  classical
  induction us generalizing m with
  | nil => rfl
  | cons u us ih =>
    simp only [map_cons, mem_cons, not_or] at h
    rw [applyUpdates, foldl_cons, ← applyUpdates, ih h.2, getElem?_applyUpdate, if_neg]
    exact fun he => h.1 he.symm

/-- A key that one update names has the value of that update. -/
theorem getElem?_applyUpdates_of_mem {us : List (κ × Option α)} {k : κ} {a : Option α}
    (hnd : (us.map Prod.fst).Nodup) (h : (k, a) ∈ us) (m : Std.ExtTreeMap κ α) :
    (applyUpdates m us)[k]? = a := by
  classical
  induction us generalizing m with
  | nil => simp at h
  | cons u us ih =>
    rw [map_cons, nodup_cons] at hnd
    rw [applyUpdates, foldl_cons, ← applyUpdates]
    rcases mem_cons.1 h with rfl | h
    · rw [getElem?_applyUpdates_of_not_mem hnd.1, getElem?_applyUpdate, if_pos rfl]
    · exact ih hnd.2 h _

/-! ## Maps that hold the pairs of a list -/

/-- The map has the pairs of the list and no others. -/
def Holds (m : Std.ExtTreeMap κ α) (ps : List (κ × α)) : Prop := ∀ k a, m[k]? = some a ↔ (k, a) ∈ ps

/-- The updates that put the pairs of a list. -/
def putAll (ps : List (κ × α)) : List (κ × Option α) := ps.map fun p => (p.1, some p.2)

/-- The updates that remove the keys of a list. -/
def removeAll (ks : List κ) : List (κ × Option α) := ks.map fun k => (k, none)

omit [Std.LawfulEqOrd κ] in
theorem Holds.empty : Holds (∅ : Std.ExtTreeMap κ α) [] := by
  intro k a
  simp

variable {m : Std.ExtTreeMap κ α}

omit [Std.LawfulEqOrd κ] in
/-- The keys of the map. -/
theorem Holds.mem_iff {ps : List (κ × α)} (h : Holds m ps) (k : κ) :
    k ∈ m ↔ k ∈ ps.map Prod.fst := by
  rw [mem_iff_isSome_getElem?, Option.isSome_iff_exists, mem_map]
  constructor
  · rintro ⟨a, ha⟩
    exact ⟨(k, a), (h k a).1 ha, rfl⟩
  · rintro ⟨⟨k', a⟩, hmem, rfl⟩
    exact ⟨a, (h k' a).2 hmem⟩

omit [Std.LawfulEqOrd κ] in
theorem Holds.perm {ps qs : List (κ × α)} (h : Holds m ps) (hp : ps.Perm qs) :
    Holds m qs := fun k a => (h k a).trans hp.mem_iff

/-- New pairs are put. -/
theorem Holds.putAll {ps new : List (κ × α)} (h : Holds m ps)
    (hnd : ((new ++ ps).map Prod.fst).Nodup) : Holds (applyUpdates m (putAll new)) (new ++ ps) := by
  have hkeys : (Lib.putAll new).map Prod.fst = new.map Prod.fst := by
    simp [Lib.putAll, Function.comp_def]
  rw [map_append, nodup_append] at hnd
  obtain ⟨hnew, _, hdisjoint⟩ := hnd
  intro k a
  rw [mem_append]
  by_cases hk : k ∈ new.map Prod.fst
  · -- the key is one of the new ones, and no old pair has it
    obtain ⟨⟨k', b⟩, hmem, rfl⟩ := mem_map.1 hk
    have hold : (k', a) ∉ ps := fun hp => hdisjoint k' hk k' (mem_map_of_mem hp) rfl
    have hput : (k', some b) ∈ Lib.putAll new := mem_map.2 ⟨(k', b), hmem, rfl⟩
    rw [getElem?_applyUpdates_of_mem (by rwa [hkeys]) hput]
    constructor
    · rintro ⟨rfl⟩
      exact .inl hmem
    · rintro (hp | hp)
      · have hpair := inj_on_of_nodup_map hnew hmem hp rfl
        exact congrArg some (Prod.ext_iff.1 hpair).2
      · exact absurd hp hold
  · rw [getElem?_applyUpdates_of_not_mem (by rwa [hkeys]), h k a]
    exact ⟨.inr, fun hp => hp.resolve_left fun hp => hk (mem_map_of_mem hp)⟩

/-- They are removed again. -/
theorem Holds.removeAll {ps new : List (κ × α)} (h : Holds m (new ++ ps))
    (hnd : ((new ++ ps).map Prod.fst).Nodup) :
    Holds (applyUpdates m (removeAll (new.map Prod.fst))) ps := by
  have hkeys : (Lib.removeAll (new.map Prod.fst) : List (κ × Option α)).map Prod.fst =
      new.map Prod.fst := by simp [Lib.removeAll, Function.comp_def]
  rw [map_append, nodup_append] at hnd
  obtain ⟨hnew, _, hdisjoint⟩ := hnd
  intro k a
  by_cases hk : k ∈ new.map Prod.fst
  · have hremove : (k, none) ∈ (Lib.removeAll (new.map Prod.fst) : List (κ × Option α)) :=
      mem_map.2 ⟨k, hk, rfl⟩
    rw [getElem?_applyUpdates_of_mem (by rwa [hkeys]) hremove]
    constructor
    · intro hnone
      cases hnone
    · exact fun hp => absurd rfl (hdisjoint k hk k (mem_map_of_mem hp))
  · rw [getElem?_applyUpdates_of_not_mem (by rwa [hkeys]), h k a, mem_append]
    exact ⟨fun hp => hp.resolve_left fun hp => hk (mem_map_of_mem hp), .inr⟩

end Hcashd.Lib
