import Hcashd.Lib.Result

/-!
# Matching in order, greedily

Each item of a list is to be assigned to an item of a second list that accepts it, in order. Going
through the second list once and giving each of its items to the first item that is still without
one finds an assignment whenever there is one: an item that accepts it earlier leaves more for the
rest (`tail_of_sublistForall₂`). The scan may stop early when the second list has fewer items left
than the first, and a test may fail, as long as an item whose test fails is accepted by none
(`scan_eq_ok_true`).
-/

namespace Hcashd.Lib

open List

variable {ε α β : Type} {as : List α} {bs : List β} {test : α → β → Except ε Bool}

/-- The greedy scan, with a test that may fail. -/
def scan (test : α → β → Except ε Bool) : List α → List β → Except ε Bool
  | [], _ => .ok true
  | _ :: _, [] => .ok false
  | a :: as, b :: bs =>
    if bs.length < as.length then .ok false
    else do
      if ← test a b then scan test as bs else scan test (a :: as) bs

/-- All items of the first list are assigned to items of the second one, in the same order and no
two to the same. -/
def Assigns (R : α → β → Prop) (as : List α) (bs : List β) : Prop :=
  ∃ f : Fin as.length → Fin bs.length, StrictMono f ∧ ∀ i, R (as.get i) (bs.get (f i))

/-- An assignment picks out a part of the second list that matches the first item by item. -/
theorem assigns_iff_sublistForall₂ {R : α → β → Prop} :
    Assigns R as bs ↔ SublistForall₂ R as bs := by
  rw [sublistForall₂_iff]
  constructor
  · rintro ⟨f, hmono, hf⟩
    refine ⟨ofFn fun i => bs.get (f i), ?_, ?_⟩
    · refine forall₂_iff_get.2 ⟨(length_ofFn).symm, fun i h1 h2 => ?_⟩
      simpa using hf ⟨i, h1⟩
    · refine sublist_iff_exists_fin_orderEmbedding_get_eq.2
        ⟨OrderEmbedding.ofStrictMono (fun i => f (Fin.cast length_ofFn i)) fun i j hij =>
          hmono hij, fun i => ?_⟩
      rw [get_ofFn]
      rfl
  · rintro ⟨picked, hmatch, hsub⟩
    obtain ⟨f, hf⟩ := sublist_iff_exists_fin_orderEmbedding_get_eq.1 hsub
    obtain ⟨hlen, hget⟩ := forall₂_iff_get.1 hmatch
    refine ⟨fun i => f (Fin.cast hlen i), fun i j hij => f.strictMono hij, fun i => ?_⟩
    have := hget i i.2 (hlen ▸ i.2)
    rwa [← hf (Fin.cast hlen i)]

section

variable {R : α → β → Prop} {a : α} {b : β} {as : List α} {bs : List β}

theorem tail_of_sublistForall₂ (h : SublistForall₂ R (a :: as) bs) : SublistForall₂ R as bs := by
  obtain ⟨picked, hmatch, hsub⟩ := sublistForall₂_iff.1 h
  obtain ⟨b, rest, -, hrest, rfl⟩ := forall₂_cons_left_iff.1 hmatch
  exact sublistForall₂_iff.2 ⟨rest, hrest, (sublist_cons_self b rest).trans hsub⟩

/-- A match may be taken at once. -/
theorem sublistForall₂_cons_of_accepts (hab : R a b) :
    SublistForall₂ R (a :: as) (b :: bs) ↔ SublistForall₂ R as bs := by
  refine ⟨fun h => ?_, .cons hab⟩
  cases h with
  | cons _ h => exact h
  | cons_right h => exact tail_of_sublistForall₂ h

/-- A mismatch is skipped. -/
theorem sublistForall₂_cons_of_not_accepts (hab : ¬ R a b) :
    SublistForall₂ R (a :: as) (b :: bs) ↔ SublistForall₂ R (a :: as) bs := by
  refine ⟨fun h => ?_, .cons_right⟩
  cases h with
  | cons h _ => exact absurd h hab
  | cons_right h => exact h

theorem length_le_of_sublistForall₂ (h : SublistForall₂ R as bs) : as.length ≤ bs.length := by
  obtain ⟨picked, hmatch, hsub⟩ := sublistForall₂_iff.1 h
  exact hmatch.length_eq.trans_le hsub.length_le

end

/-- The test passes. -/
def Accepts (test : α → β → Except ε Bool) (a : α) (b : β) : Prop := test a b = .ok true

/-- The scan finds an assignment whenever there is one, if an item whose test fails is accepted by
none. -/
theorem scan_eq_ok_true
    (hfail : ∀ a b e, test a b = .error e → ∀ b', ¬ Accepts test a b') (as : List α) (bs : List β) :
    scan test as bs = .ok true ↔ SublistForall₂ (Accepts test) as bs := by
  fun_induction scan test as bs with
  | case1 bs => exact iff_of_true rfl .nil
  | case2 a as =>
    exact iff_of_false (by simp) (fun h => by simpa using length_le_of_sublistForall₂ h)
  | case3 a as b bs hfew =>
    refine iff_of_false (by simp) fun h => ?_
    have := length_le_of_sublistForall₂ h
    simp only [length_cons] at this
    omega
  | case4 a as b bs henough ihnext ihsame =>
    rcases htest : test a b with e | _ | _
    · -- The test fails, so nothing accepts this item.
      refine iff_of_false (by simp [bind, Except.bind]) fun h => ?_
      obtain ⟨picked, hmatch, -⟩ := sublistForall₂_iff.1 h
      obtain ⟨b', -, hb', -, -⟩ := forall₂_cons_left_iff.1 hmatch
      exact hfail a b e htest b' hb'
    · have hnot : ¬ Accepts test a b := by simp [Accepts, htest]
      rw [sublistForall₂_cons_of_not_accepts hnot, ← ihsame]
      rfl
    · have haccepts : Accepts test a b := htest
      rw [sublistForall₂_cons_of_accepts haccepts, ← ihnext]
      rfl

/-- A scan whose tests do not fail gives an answer. -/
theorem exists_scan_eq_ok (test : α → β → Except ε Bool) (as : List α) (bs : List β)
    (htests : ∀ a ∈ as, ∀ b ∈ bs, ∃ r, test a b = .ok r) : ∃ r, scan test as bs = .ok r := by
  fun_induction scan test as bs with
  | case1 bs => exact ⟨true, rfl⟩
  | case2 | case3 => exact ⟨false, rfl⟩
  | case4 a as b bs henough ihnext ihsame =>
    obtain ⟨r, hr⟩ := htests a (mem_cons_self ..) b (mem_cons_self ..)
    rw [hr]
    cases r with
    | false => exact ihsame fun a' ha' b' hb' => htests a' ha' b' (mem_cons_of_mem _ hb')
    | true =>
      exact ihnext fun a' ha' b' hb' => htests a' (mem_cons_of_mem _ ha') b' (mem_cons_of_mem _ hb')

/-- A scan fails with the error of one of its tests. -/
theorem scan_eq_error {e : ε} (h : scan test as bs = .error e) :
    ∃ a ∈ as, ∃ b ∈ bs, test a b = .error e := by
  fun_induction scan test as bs with
  | case1 | case2 | case3 => cases h
  | case4 a as b bs henough ihnext ihsame =>
    rcases htest : test a b with e' | _ | _
    all_goals rw [htest] at h
    · cases h
      exact ⟨a, mem_cons_self .., b, mem_cons_self .., htest⟩
    · obtain ⟨a', ha', b', hb', he⟩ := ihsame h
      exact ⟨a', ha', b', mem_cons_of_mem _ hb', he⟩
    · obtain ⟨a', ha', b', hb', he⟩ := ihnext h
      exact ⟨a', mem_cons_of_mem _ ha', b', mem_cons_of_mem _ hb', he⟩

end Hcashd.Lib
