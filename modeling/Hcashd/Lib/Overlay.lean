import Hcashd.Lib.Updates

/-!
# Pending changes over a map

An overlay holds keys to put and keys to remove, which are not yet in the map below it. A read looks
at the removed keys first, then at the put ones, then below. Reading through an overlay is the same
as reading after it was written (`getElem?_write`), two overlays can be merged into one
(`read_merge`), and an overlay over a map that already has its changes makes no difference
(`read_read`).
-/

namespace Hcashd.Lib

open Std.ExtTreeMap

variable {K V : Type} [Ord K] [Std.TransOrd K]

/-- Keys to put and keys to remove. -/
structure Overlay (K V : Type) [Ord K] [Std.TransOrd K] where
  puts : Std.ExtTreeMap K V
  removes : Std.ExtTreeMap K Unit

namespace Overlay

/-- No changes. -/
def empty : Overlay K V := ⟨∅, ∅⟩

/-- No key is put or removed. -/
def isEmpty (o : Overlay K V) : Bool := o.puts.isEmpty && o.removes.isEmpty

/-- One more key to put. -/
def put (o : Overlay K V) (k : K) (v : V) : Overlay K V := ⟨o.puts.insert k v, o.removes.erase k⟩

/-- One more key to remove. -/
def delete (o : Overlay K V) (k : K) : Overlay K V := ⟨o.puts.erase k, o.removes.insert k ()⟩

/-- What is at a key, with the changes. -/
def read (o : Overlay K V) (base : K → Option V) (k : K) : Option V :=
  if k ∈ o.removes then none else o.puts[k]?.or (base k)

/-- Later changes on top of earlier ones. -/
def merge (o later : Overlay K V) : Overlay K V :=
  later.removes.foldl (fun o k _ => o.delete k) (later.puts.foldl put o)

/-- The map after the changes. -/
def write (o : Overlay K V) (m : Std.ExtTreeMap K V) : Std.ExtTreeMap K V :=
  o.removes.foldl (fun m k _ => m.erase k) (o.puts.foldl (fun m k v => m.insert k v) m)

variable (o later : Overlay K V) (base : K → Option V) (k : K)

@[simp]
theorem read_empty : (empty : Overlay K V).read base = base := by
  funext k
  simp [read, empty]

theorem eq_empty_of_isEmpty (h : o.isEmpty = true) : o = empty := by
  rw [isEmpty, Bool.and_eq_true, Std.ExtTreeMap.isEmpty_iff, Std.ExtTreeMap.isEmpty_iff] at h
  obtain ⟨puts, removes⟩ := o
  obtain ⟨rfl, rfl⟩ := h
  rfl

/-- Removed keys first, then the keys that are put. -/
theorem read_eq : o.read base k = o.removes[k]?.elim (o.puts[k]?.elim (base k) some) fun _ =>
    none := by
  simp only [read, mem_iff_isSome_getElem?]
  cases o.removes[k]? with
  | some _ => rfl
  | none => cases o.puts[k]? <;> rfl

/-- Changes that are below already make no difference. -/
theorem read_read : o.read (o.read base) = o.read base := by
  funext k
  rw [read_eq, read_eq]
  cases o.removes[k]? with
  | some _ => rfl
  | none => cases o.puts[k]? <;> rfl

section Lawful

variable [Std.LawfulEqOrd K] [DecidableEq K]

/-- What is read after a put. -/
theorem read_put (v : V) (k' : K) :
    (o.put k v).read base k' = if k' = k then some v else o.read base k' := by
  by_cases h : k' = k
  · subst h
    simp [read, put]
  · simp [read, put, mem_erase, getElem?_insert, Ne.symm h, h]

/-- What is read after a delete. -/
theorem read_delete (k' : K) :
    (o.delete k).read base k' = if k' = k then none else o.read base k' := by
  by_cases h : k' = k
  · subst h
    simp [read, delete]
  · simp [read, delete, mem_insert, getElem?_erase, Ne.symm h, h]

section View

variable {σ W : Type} (view : σ → K → Option V) {step : σ → K → W → σ} (value : W → Option V)
  (hstep : ∀ s k w k', view (step s k w) k' = if k' = k then value w else view s k')

include hstep in
omit [Ord K] [Std.TransOrd K] [Std.LawfulEqOrd K] in
/-- Steps for other keys change nothing. -/
theorem view_foldl_of_not_mem {l : List (K × W)} {k : K} (h : ∀ p ∈ l, k ≠ p.1) (s : σ) :
    view (l.foldl (fun s p => step s p.1 p.2) s) k = view s k := by
  induction l generalizing s with
  | nil => rfl
  | cons p l ih =>
    obtain ⟨hp, hl⟩ := List.forall_mem_cons.1 h
    rw [List.foldl_cons, ih hl, hstep, if_neg hp]

include hstep in
omit [Ord K] [Std.TransOrd K] [Std.LawfulEqOrd K] in
/-- The step for a key decides. -/
theorem view_foldl_of_mem {l : List (K × W)} {k : K} {w : W}
    (hdistinct : l.Pairwise fun p q => p.1 ≠ q.1) (h : (k, w) ∈ l) (s : σ) :
    view (l.foldl (fun s p => step s p.1 p.2) s) k = value w := by
  induction l generalizing s with
  | nil => exact absurd h List.not_mem_nil
  | cons p l ih =>
    obtain ⟨hp, hdistinct⟩ := List.pairwise_cons.1 hdistinct
    rw [List.foldl_cons]
    rcases List.mem_cons.1 h with rfl | h
    · rw [view_foldl_of_not_mem view value hstep hp, hstep, if_pos rfl]
    · exact ih hdistinct h _

include hstep in
/-- All steps, for one key. -/
theorem view_foldl (m : Std.ExtTreeMap K W) (s : σ) (k : K) :
    view (m.foldl step s) k = m[k]?.elim (view s k) value := by
  rw [foldl_eq_foldl_toList]
  cases hk : m[k]? with
  | some w =>
    refine view_foldl_of_mem view value hstep ?_ (mem_toList_iff_getElem?_eq_some.2 hk) s
    refine distinct_keys_toList.imp fun {p q} hne heq => ?_
    rw [heq] at hne
    exact hne Std.ReflCmp.compare_self
  | none =>
    refine view_foldl_of_not_mem view value hstep (fun p hp heq => ?_) s
    have hp' := mem_toList_iff_getElem?_eq_some.1 hp
    rw [← heq, hk] at hp'
    exact nomatch hp'

end View

/-- Merged changes are the later ones over the earlier ones. -/
theorem read_merge : (o.merge later).read base = later.read (o.read base) := by
  funext k
  rw [merge, view_foldl (fun o => o.read base) (fun _ => none) (fun o k _ k' =>
    read_delete o base k k'),
    view_foldl (fun o => o.read base) some (fun o k v k' => read_put o base k v k'), read_eq later]

/-- Reading through an overlay is reading after it was written. -/
theorem getElem?_write (m : Std.ExtTreeMap K V) : (o.write m)[k]? = o.read (fun k => m[k]?) k := by
  have herase : ∀ (m : Std.ExtTreeMap K V) (k : K) (_ : Unit) (k' : K),
      (m.erase k)[k']? = if k' = k then none else m[k']? := by
    intro m k _ k'
    by_cases h : k' = k
    · simp [h]
    · simp [getElem?_erase, h, Ne.symm h]
  have hinsert : ∀ (m : Std.ExtTreeMap K V) (k : K) (v : V) (k' : K),
      (m.insert k v)[k']? = if k' = k then some v else m[k']? := by
    intro m k v k'
    by_cases h : k' = k
    · simp [h]
    · simp [getElem?_insert, h, Ne.symm h]
  have hputs := view_foldl (fun (m : Std.ExtTreeMap K V) k => m[k]?) some hinsert o.puts m k
  calc (o.write m)[k]? =
    o.removes[k]?.elim (o.puts.foldl (fun m k v => m.insert k v) m)[k]? fun _ => none :=
        view_foldl (fun (m : Std.ExtTreeMap K V) k => m[k]?) (fun _ => none) herase o.removes _ k
    _ = o.removes[k]?.elim (o.puts[k]?.elim m[k]? some) fun _ => none := by rw [hputs]
    _ = o.read (fun k => m[k]?) k := (read_eq o _ k).symm

end Lawful

end Overlay

end Hcashd.Lib
