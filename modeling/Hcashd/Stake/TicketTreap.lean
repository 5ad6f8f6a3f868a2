import Hcashd.Wire
import Hcashd.Database.Treap

/-!
# Ticket treaps

`blockchain/stake/internal/tickettreap`: the treaps of `Hcashd.Treap` with the hashes of tickets as
keys. An `Immutable` carries the order of its keys and its number of pairs. Hashes compare as their
bytes do.

What a ticket treap holds is a finite map, `Immutable.toMap`. `Put`, `Delete`, `Get`, `Len` and
`ForEach` are the operations of that map, so that the tickets of a stake node are kept as a map
(`TicketTreap`) from here on.
-/

namespace Hcashd.Stake

open Treap

/-- `tickettreap.Value`: where the ticket was bought, and what became of it. -/
structure Value where
  height : ℕ
  keyHeight : ℕ
  missed : Bool
  revoked : Bool
  spent : Bool
  expired : Bool
  deriving DecidableEq, Repr

/-- `tickettreap.Immutable`. -/
structure Immutable where
  root : TreapNode Hash Value
  count : ℕ
  -- The keys are in order, and they are counted.
  sorted : Sorted root
  count_eq : count = (toList root).length

/-- What a ticket treap holds: a map from ticket hashes, iterated in key order. -/
abbrev TicketTreap := Std.ExtTreeMap Hash Value

namespace Immutable

/-- `NewImmutable`. -/
def newImmutable : Immutable where
  root := .nil
  count := 0
  sorted := .nil
  count_eq := rfl

/-- `Len`: the number of tickets. -/
def len (t : Immutable) : ℕ := t.count

/-- `Get`: the value of a ticket. -/
def get (t : Immutable) (key : Hash) : Option Value := Treap.get key t.root

/-- `Has`: whether a ticket is there. -/
def has (t : Immutable) (key : Hash) : Bool := (t.get key).isSome

/-- `Put`, for a value that is not nil and the priority that is drawn for a new node. -/
def put (t : Immutable) (key : Hash) (value : Value) (priority : ℤ) : Immutable where
  root := Treap.put key value priority t.root
  count := if t.has key then t.count else t.count + 1
  sorted := t.sorted.put key value priority
  count_eq := by
    obtain ⟨lower, upper, -, -, ht, hput, -⟩ := t.sorted.split key
    rw [hput, t.count_eq, ht, has, get]
    cases Treap.get key t.root <;> simp
    omega

/-- `Delete`: the treap without a ticket. -/
def delete (t : Immutable) (key : Hash) : Immutable where
  root := Treap.delete key t.root
  count := if t.has key then t.count - 1 else t.count
  sorted := t.sorted.delete key
  count_eq := by
    obtain ⟨lower, upper, -, -, ht, -, hdelete⟩ := t.sorted.split key
    rw [hdelete, t.count_eq, ht, has, get]
    cases Treap.get key t.root <;> simp

/-- `ForEach`. -/
def forEach {S : Type} (t : Immutable) (fn : S → Hash × Value → S × Bool) (s : S) : S :=
  Treap.forEach fn s t.root

/-! ## The map of a treap -/

variable (t : Immutable)

/-- The map that a treap stands for. -/
def toMap : TicketTreap := .ofList (toList t.root)

theorem distinct_toList : (toList t.root).Pairwise fun a b => ¬ compare a.1 b.1 = .eq :=
  t.sorted.imp fun h => by simpa using h.ne

/-- `Get` is the look-up in the map. -/
theorem getElem?_toMap (key : Hash) : t.toMap[key]? = t.get key := by
  cases hget : t.get key with
  | none =>
    refine Std.ExtTreeMap.getElem?_ofList_of_contains_eq_false ?_
    rw [List.contains_eq_mem, decide_eq_false_iff_not, List.mem_map]
    rintro ⟨⟨_, v⟩, hv, rfl⟩
    exact Option.some_ne_none v ((t.sorted.mem_toList_iff.1 hv).symm.trans hget)
  | some v =>
    have hmem : (key, v) ∈ toList t.root := t.sorted.mem_toList_iff.2 hget
    exact Std.ExtTreeMap.getElem?_ofList_of_mem Std.ReflCmp.compare_self t.distinct_toList hmem

/-- `Put` inserts into the map. -/
theorem toMap_put (key : Hash) (value : Value) (priority : ℤ) :
    (t.put key value priority).toMap = t.toMap.insert key value := by
  refine Std.ExtTreeMap.ext_getElem? fun j => ?_
  simp only [getElem?_toMap, Std.ExtTreeMap.getElem?_insert, Std.compare_eq_iff_eq]
  exact t.sorted.get_put key j value priority

/-- `Delete` erases from the map. -/
theorem toMap_delete (key : Hash) : (t.delete key).toMap = t.toMap.erase key := by
  refine Std.ExtTreeMap.ext_getElem? fun j => ?_
  simp only [getElem?_toMap, Std.ExtTreeMap.getElem?_erase, Std.compare_eq_iff_eq]
  exact t.sorted.get_delete key j

/-- `Len` is the size of the map. -/
theorem size_toMap : t.toMap.size = t.len :=
  (Std.ExtTreeMap.size_ofList t.distinct_toList).trans t.count_eq.symm

/-- The map is iterated in the order in which the treap holds its pairs. -/
theorem toList_toMap : t.toMap.toList = toList t.root := by
  have hmap :=
    (Std.ExtTreeMap.ordered_keys_toList (t := t.toMap)).imp fun h => compare_lt_iff_lt.1 h
  have : Std.Antisymm fun a b : Hash × Value => a.1 < b.1 := ⟨fun _ _ h h' => absurd h h'.asymm⟩
  have : Std.Irrefl fun a b : Hash × Value => a.1 < b.1 := ⟨fun _ h => lt_irrefl _ h⟩
  refine List.Pairwise.eq_of_mem_iff hmap t.sorted fun kv => ?_
  obtain ⟨key, value⟩ := kv
  rw [Std.ExtTreeMap.mem_toList_iff_getElem?_eq_some, getElem?_toMap]
  exact t.sorted.mem_toList_iff.symm

/-- `ForEach` goes through the map in the order of its keys. -/
theorem forEach_eq {S : Type} (fn : S → Hash × Value → S × Bool) (s : S) :
    t.forEach fn s = foldWhile fn s t.toMap.toList := by
  rw [forEach, Treap.forEach_eq, toList_toMap]

end Immutable

end Hcashd.Stake
