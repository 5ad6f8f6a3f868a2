import Mathlib

/-!
# Tables of results

A cache is a table of results that were computed before. It is sound if each result that it holds is
one that its key allows; it stays so when a result is stored that its key allows, and a reader then
need not know where a result came from.
-/

namespace Hcashd.Lib

variable {κ ν : Type*}

/-- Every result in a table is one that its key allows. -/
def TableSound (P : κ → ν → Prop) (table : κ → Option ν) : Prop :=
  ∀ key result, table key = some result → P key result

/-- The empty table is sound. -/
theorem tableSound_empty {P : κ → ν → Prop} : TableSound P fun _ => none := fun _ _ h => nomatch h

/-- A sound result keeps the table sound. -/
theorem TableSound.update [DecidableEq κ] {P : κ → ν → Prop} {table : κ → Option ν}
    (h : TableSound P table) {key : κ} {result : ν} (hresult : P key result) :
    TableSound P (Function.update table key (some result)) := by
  intro key' result' hget
  by_cases hkey : key' = key
  · subst hkey
    rw [Function.update_self] at hget
    exact Option.some.inj hget ▸ hresult
  · rw [Function.update_of_ne hkey] at hget
    exact h key' result' hget

end Hcashd.Lib
