import Mathlib

/-!
# Treaps

`database/internal/treap` and `blockchain/stake/internal/tickettreap`, which differ in the types of
their keys and values. A node is reached along a stack of parents, and the tree is linked again from
that stack: `Immutable` writes into copies of the nodes on the stack, `Mutable` into the nodes
themselves. `Put` turns a new node up while its priority is below that of its parent. `Delete` turns
a node down and, of two children, lifts the one with the greater priority, against the order that
`Put` makes (`ordered_throughout_iff`). The keys stay in order all the same (`Sorted.split`), and
`ForEach` visits them in that order (`forEach_eq`).
-/

namespace Hcashd.Treap

/-- `treapNode`: a tree by keys and a heap by priorities. -/
inductive TreapNode (K V : Type)
  | nil
  | node (key : K) (value : V) (priority : ℤ) (left right : TreapNode K V)
  deriving DecidableEq, Repr

/-- A node on the stack of parents: the side on which the path goes on, and the child on the other
side. -/
structure Parent (K V : Type) where
  key : K
  value : V
  priority : ℤ
  isLeft : Bool
  other : TreapNode K V

open TreapNode

variable {K V : Type}

/-- A node of the stack with a child on the side of the path. -/
def Parent.link (parent : Parent K V) (child : TreapNode K V) : TreapNode K V :=
  if parent.isLeft then node parent.key parent.value parent.priority child parent.other
  else node parent.key parent.value parent.priority parent.other child

/-- The tree of a node and its parents, the nearest first. -/
def relink (parents : List (Parent K V)) (t : TreapNode K V) : TreapNode K V :=
  parents.foldl (fun child parent => parent.link child) t

/-- The loop of `Put` that turns the new node up. -/
def rotateUp (key : K) (value : V) (priority : ℤ) (left right : TreapNode K V) :
    List (Parent K V) → TreapNode K V
  | [] => node key value priority left right
  | parent :: parents =>
    if parent.priority ≤ priority
      then relink (parent :: parents) (node key value priority left right)
    else if parent.isLeft then
      rotateUp key value priority left
        (node parent.key parent.value parent.priority right parent.other) parents
    else rotateUp key value priority
      (node parent.key parent.value parent.priority parent.other left) right parents

/-- The loop of `Delete` that turns the node down, for its two children. -/
def rotateDown : TreapNode K V → TreapNode K V → List (Parent K V) → TreapNode K V
  | nil, nil, parents => relink parents nil
  | nil, node k v p l r, parents => rotateDown nil l (⟨k, v, p, true, r⟩ :: parents)
  | node k v p l r, nil, parents => rotateDown r nil (⟨k, v, p, false, l⟩ :: parents)
  | node k v p l r, node k' v' p' l' r', parents =>
    if p' ≤ p then rotateDown r (node k' v' p' l' r') (⟨k, v, p, false, l⟩ :: parents)
    else rotateDown (node k v p l r) l' (⟨k', v', p', true, r'⟩ :: parents)
termination_by l r => sizeOf l + sizeOf r

variable {p : ℤ} {t t' l r : TreapNode K V} {parent : Parent K V} {parents : List (Parent K V)}

/-! ## The pairs from left to right -/

/-- The pairs of a treap from left to right. -/
def toList : TreapNode K V → List (K × V)
  | nil => []
  | node k v _ l r => toList l ++ (k, v) :: toList r

/-- What stands to the left of the place below a stack of parents. -/
def before : List (Parent K V) → List (K × V)
  | [] => []
  | parent :: parents => if parent.isLeft then before parents
      else before parents ++ (toList parent.other ++ [(parent.key, parent.value)])

/-- What stands to the right of it. -/
def after : List (Parent K V) → List (K × V)
  | [] => []
  | parent :: parents =>
    if parent.isLeft then (parent.key, parent.value) :: toList parent.other ++ after parents
      else after parents

/-- The pairs of a treap with its parents put back. -/
theorem toList_relink :
    toList (relink parents t) = before parents ++ toList t ++ after parents := by
  induction parents generalizing t with
  | nil => simp [relink, before, after]
  | cons parent parents ih =>
    have hlink : relink (parent :: parents) t = relink parents (parent.link t) := rfl
    rw [hlink, ih, before, after, Parent.link]
    split_ifs <;> simp [toList]

/-- Turning a node up moves no pair past another. -/
theorem toList_rotateUp (key : K) (value : V) : toList (rotateUp key value p l r parents) =
    before parents ++ toList (node key value p l r) ++ after parents := by
  induction parents generalizing l r with
  | nil => simp [rotateUp, before, after]
  | cons parent parents ih =>
    unfold rotateUp
    split_ifs with hle hleft
    · exact toList_relink
    · rw [ih]
      simp [before, after, hleft, toList]
    · rw [ih]
      simp [before, after, hleft, toList]

/-! ## The order of priorities -/

/-- A child with a priority of at least `p`, or none. -/
def AtLeast (p : ℤ) : TreapNode K V → Prop
  | nil => True
  | node _ _ q _ _ => p ≤ q

/-- Every node's priority is at most those of its children. -/
def Ordered : TreapNode K V → Prop
  | nil => True
  | node _ _ p l r => AtLeast p l ∧ AtLeast p r ∧ Ordered l ∧ Ordered r

/-- A child fits under its parents, which are in order with what is on their other sides. -/
def Fits : TreapNode K V → List (Parent K V) → Prop
  | _, [] => True
  | t, parent :: parents =>
    AtLeast parent.priority t ∧ AtLeast parent.priority parent.other ∧ Ordered parent.other ∧
      Fits (parent.link t) parents

/-- A lower bound. -/
theorem AtLeast.mono {q : ℤ} (h : AtLeast q t) (hpq : p ≤ q) : AtLeast p t := by
  cases t with
  | nil => trivial
  | node k v r left right => exact hpq.trans h

theorem atLeast_link : AtLeast p (parent.link t) ↔ p ≤ parent.priority := by
  unfold Parent.link
  split_ifs <;> rfl

theorem ordered_link : Ordered (parent.link t) ↔
    AtLeast parent.priority t ∧ AtLeast parent.priority parent.other ∧ Ordered t ∧
    Ordered parent.other := by
  unfold Parent.link
  split_ifs
  · rfl
  · simp only [Ordered]
    tauto

/-- When the priorities are in order with the parents put back. -/
theorem ordered_relink : Ordered (relink parents t) ↔ Ordered t ∧ Fits t parents := by
  induction parents generalizing t with
  | nil => simp [relink, Fits]
  | cons parent parents ih =>
    have hlink : relink (parent :: parents) t = relink parents (parent.link t) := rfl
    rw [hlink, ih, ordered_link, Fits]
    tauto

/-- Only the priority of the root matters. -/
theorem Fits.congr (h : Fits t parents) (hroot : ∀ p, AtLeast p t → AtLeast p t') :
    Fits t' parents := by
  induction parents generalizing t t' with
  | nil => trivial
  | cons parent parents ih =>
    obtain ⟨htop, hother, hordered, hrest⟩ := h
    refine ⟨hroot _ htop, hother, hordered, ih hrest fun p hp => ?_⟩
    exact atLeast_link.2 (atLeast_link.1 hp)

theorem Fits.tail (h : Fits t (parent :: parents)) : Fits t parents :=
  h.2.2.2.congr fun _ hp => h.1.mono (atLeast_link.1 hp)

/-- Turning a node up makes the order, if what is below the node is in order and fits in its
place. -/
theorem ordered_rotateUp (key : K) (value : V) (hl : Ordered l) (hr : Ordered r) (hpl : AtLeast p l)
    (hpr : AtLeast p r) (hfl : Fits l parents) (hfr : Fits r parents) :
    Ordered (rotateUp key value p l r parents) := by
  induction parents generalizing l r with
  | nil => exact ⟨hpl, hpr, hl, hr⟩
  | cons parent parents ih =>
    unfold rotateUp
    split_ifs with hle hleft
    · refine ordered_relink.2
        ⟨⟨hpl, hpr, hl, hr⟩, hle, hfl.2.1, hfl.2.2.1, hfl.2.2.2.congr fun p hp => ?_⟩
      exact atLeast_link.2 (atLeast_link.1 hp)
    · -- the parent keeps the node's right child
      refine ih hl ⟨hfr.1, hfr.2.1, hr, hfr.2.2.1⟩ hpl (not_le.1 hle).le hfl.tail
        (hfr.2.2.2.congr fun p hp => ?_)
      exact atLeast_link.1 hp
    · refine ih ⟨hfl.2.1, hfl.1, hfl.2.2.1, hl⟩ hr (not_le.1 hle).le hpr
        (hfl.2.2.2.congr fun p hp => ?_) hfr.tail
      exact atLeast_link.1 hp

/-! ## What a deletion leaves -/

/-- The tree that the two children of a deleted node become. -/
def merge : TreapNode K V → TreapNode K V → TreapNode K V
  | nil, r => r
  | l, nil => l
  | node k v p l r, node k' v' p' l' r' =>
    if p' ≤ p then node k v p l (merge r (node k' v' p' l' r'))
    else node k' v' p' (merge (node k v p l r) l') r'
termination_by l r => sizeOf l + sizeOf r

theorem merge_nil (l : TreapNode K V) : merge l nil = l := by cases l <;> simp [merge]

/-- Rotating a node down and cutting it off merges its subtrees. -/
theorem rotateDown_eq (l r : TreapNode K V) (parents : List (Parent K V)) :
    rotateDown l r parents = relink parents (merge l r) := by
  fun_induction rotateDown l r parents with
  | case1 parents => rw [merge]
  | case2 parents k v p l r ih => rw [ih, merge, merge]; rfl
  | case3 parents k v p l r ih => rw [ih, merge_nil, merge_nil]; rfl
  | case4 parents k v p l r k' v' p' l' r' hle ih => rw [ih, merge, if_pos hle]; rfl
  | case5 parents k v p l r k' v' p' l' r' hle ih => rw [ih, merge, if_neg hle]; rfl

/-- Merging keeps the pairs and their order. -/
theorem toList_merge (l r : TreapNode K V) : toList (merge l r) = toList l ++ toList r := by
  fun_induction merge l r with
  | case1 r => rfl
  | case2 l => simp [toList]
  | case3 k v p l r k' v' p' l' r' hle ih => simp [toList, ih]
  | case4 k v p l r k' v' p' l' r' hle ih => simp [toList, ih]

theorem atLeast_merge (hl : AtLeast p l) (hr : AtLeast p r) : AtLeast p (merge l r) := by
  fun_cases merge l r with
  | case1 => exact hr
  | case2 | case3 => exact hl
  | case4 => exact hr

/-- In a merged tree that is in order, nothing is below what is below the root. -/
theorem atLeast_of_merge (h : Ordered (merge l r)) (hp : AtLeast p (merge l r)) :
    AtLeast p l ∧ AtLeast p r := by
  fun_induction merge l r generalizing p with
  | case1 r => exact ⟨trivial, hp⟩
  | case2 l => exact ⟨hp, trivial⟩
  | case3 k v q l r k' v' q' l' r' hle ih => exact ⟨hp, (ih h.2.2.2 h.2.1).2.mono hp⟩
  | case4 k v q l r k' v' q' l' r' hle ih => exact ⟨(ih h.2.2.1 h.1).1.mono hp, hp⟩

/-- The priorities down the right side of a tree. -/
def rightSpine : TreapNode K V → List ℤ
  | nil => []
  | node _ _ p _ r => p :: rightSpine r

/-- The priority of the root. -/
def priority? : TreapNode K V → Option ℤ
  | nil => none
  | node _ _ p _ _ => some p

/-- Two trees in order are merged in order exactly where the right side of the first has the
priority of the second root all the way down. -/
theorem ordered_merge_iff (hl : Ordered l) (hr : Ordered r) :
    Ordered (merge l r) ↔ ∀ p ∈ rightSpine l, ∀ q ∈ priority? r, p = q := by
  fun_induction merge l r with
  | case1 r => simp [rightSpine, hr]
  | case2 l => simp [priority?, hl]
  | case3 k v p l r k' v' p' l' r' hle ih =>
    rw [Ordered, rightSpine, List.forall_mem_cons, ← ih hl.2.2.2 hr]
    simp only [priority?, Option.mem_some_iff, forall_eq']
    constructor
    · rintro ⟨-, hp, -, hmerged⟩
      exact ⟨le_antisymm (atLeast_of_merge hmerged hp).2 hle, hmerged⟩
    · rintro ⟨rfl, hmerged⟩
      exact ⟨hl.1, atLeast_merge hl.2.1 le_rfl, hl.2.2.1, hmerged⟩
  | case4 k v p l r k' v' p' l' r' hle ih =>
    -- the left root ends up below the right one, which is greater
    refine iff_of_false (fun h => ?_) fun h => hle (h p List.mem_cons_self p' rfl).ge
    exact hle (atLeast_of_merge h.2.2.1 h.1).1

/-! ## The loop of `ForEach` -/

/-- The loop that pushes a node and all children to the left of it. A node on the stack is kept by
its pair and its right child, which is all that is still read of it. -/
def pushLeft : TreapNode K V → List ((K × V) × TreapNode K V) → List ((K × V) × TreapNode K V)
  | nil, stack => stack
  | node k v _ l r, stack => pushLeft l (((k, v), r) :: stack)

/-- The pairs that a stack of nodes still stands for. -/
def pending (stack : List ((K × V) × TreapNode K V)) : List (K × V) :=
  stack.flatMap fun x => x.1 :: toList x.2

/-- What a stack has still to visit. -/
theorem pending_pushLeft (t : TreapNode K V) (stack : List ((K × V) × TreapNode K V)) :
    pending (pushLeft t stack) = toList t ++ pending stack := by
  induction t generalizing stack with
  | nil => rfl
  | node k v p l r ihl _ =>
    rw [pushLeft, ihl]
    simp [pending, toList]

/-- The loop over the nodes on the stack, which ends when the function does not ask for more. -/
def forEachFrom {S : Type} (fn : S → K × V → S × Bool) (s : S) : List ((K × V) × TreapNode K V) → S
  | [] => s
  | (kv, right) :: stack =>
    if (fn s kv).2 then forEachFrom fn (fn s kv).1 (pushLeft right stack) else (fn s kv).1
termination_by stack => (pending stack).length
decreasing_by
  rw [pending_pushLeft]
  simp [pending]

/-- `ForEach`: the function is called with each pair and with what its previous calls have left. -/
def forEach {S : Type} (fn : S → K × V → S × Bool) (s : S) (t : TreapNode K V) : S :=
  forEachFrom fn s (pushLeft t [])

/-- A fold over a list that ends when the function does not ask for more. -/
def foldWhile {S α : Type} (fn : S → α → S × Bool) (s : S) : List α → S
  | [] => s
  | a :: as => if (fn s a).2 then foldWhile fn (fn s a).1 as else (fn s a).1

/-- The loop visits what is pending until it is told to stop. -/
theorem forEachFrom_eq {S : Type} (fn : S → K × V → S × Bool) (s : S)
    (stack : List ((K × V) × TreapNode K V)) :
    forEachFrom fn s stack = foldWhile fn s (pending stack) := by
  fun_induction forEachFrom fn s stack with
  | case1 s => rfl
  | case2 s kv right stack hmore ih =>
    rw [ih, pending_pushLeft]
    simp [pending, foldWhile, hmore]
  | case3 s kv right stack hmore => simp [pending, foldWhile, hmore]

/-- `ForEach` calls the function with the pairs from left to right. -/
theorem forEach_eq {S : Type} (fn : S → K × V → S × Bool) (s : S) (t : TreapNode K V) :
    forEach fn s t = foldWhile fn s (toList t) := by
  rw [forEach, forEachFrom_eq, pending_pushLeft]
  simp [pending]

/-! ## Operations -/

variable [LinearOrder K]

/-- The loop that all operations begin with: the node with a key, or the place where it would be,
with the parents. -/
def find (key : K) : TreapNode K V → List (Parent K V) → TreapNode K V × List (Parent K V)
  | nil, parents => (nil, parents)
  | node k v p l r, parents =>
    if key < k then find key l (⟨k, v, p, true, r⟩ :: parents)
    else if k < key then find key r (⟨k, v, p, false, l⟩ :: parents)
    else (node k v p l r, parents)

/-- `Put`, for a value that is not nil. The priority is the one that is drawn for a new node. -/
def put (key : K) (value : V) (priority : ℤ) (t : TreapNode K V) : TreapNode K V :=
  match find key t [] with
  | (nil, parents) => rotateUp key value priority nil nil parents
  | (node k _ p l r, parents) => relink parents (node k value p l r)

/-- `Delete`: rotates the node down until it can be taken off. -/
def delete (key : K) (t : TreapNode K V) : TreapNode K V :=
  match find key t [] with
  | (nil, _) => t
  | (node _ _ _ l r, parents) => rotateDown l r parents

/-- An operation that changes a treap. -/
inductive Op (K V : Type)
  | put (key : K) (value : V) (priority : ℤ)
  | delete (key : K)

/-- The treap after an operation. -/
def Op.apply (t : TreapNode K V) : Op K V → TreapNode K V
  | .put key value priority => Treap.put key value priority t
  | .delete key => Treap.delete key t

/-- The treap after operations on an empty one. -/
def run (ops : List (Op K V)) : TreapNode K V := ops.foldl Op.apply nil

/-- The search takes the treap apart and loses nothing. -/
theorem relink_find (key : K) (t : TreapNode K V) (parents : List (Parent K V)) :
    relink (find key t parents).2 (find key t parents).1 = relink parents t := by
  induction t generalizing parents with
  | nil => rfl
  | node k v p l r ihl ihr =>
    unfold find
    split_ifs
    · rw [ihl]
      rfl
    · rw [ihr]
      rfl
    · rfl

/-! ## The order of keys -/

/-- The keys increase from left to right. -/
def Sorted (t : TreapNode K V) : Prop := (toList t).Pairwise fun a b => a.1 < b.1

/-- `Get`. -/
def get (key : K) (t : TreapNode K V) : Option V :=
  match (find key t []).1 with
  | nil => none
  | node _ v _ _ _ => some v

/-- The search ends between the smaller and the greater keys. -/
theorem find_spec (key : K) (parents : List (Parent K V)) (h : Sorted (relink parents t))
    (hbefore : ∀ a ∈ before parents, a.1 < key) (hafter : ∀ a ∈ after parents, key < a.1) :
    (∀ a ∈ before (find key t parents).2, a.1 < key) ∧
    (∀ a ∈ after (find key t parents).2, key < a.1) ∧
      ∀ k v p l r, (find key t parents).1 = node k v p l r →
        k = key ∧ (∀ a ∈ toList l, a.1 < key) ∧ ∀ a ∈ toList r, key < a.1 := by
  induction t generalizing parents with
  | nil => exact ⟨hbefore, hafter, by simp [find]⟩
  | node k v p l r ihl ihr =>
    have hsides : (∀ a ∈ toList l, a.1 < k) ∧ ∀ a ∈ toList r, k < a.1 := by
      rw [Sorted, toList_relink] at h
      have hnode := (List.pairwise_append.1 (List.pairwise_append.1 h).1).2.1
      obtain ⟨-, hright, hleft⟩ := List.pairwise_append.1 hnode
      exact ⟨fun a ha => hleft a ha (k, v) List.mem_cons_self, (List.pairwise_cons.1 hright).1⟩
    unfold find
    split_ifs with hlt hgt
    · refine ihl (⟨k, v, p, true, r⟩ :: parents) h hbefore ?_
      simp only [after, if_true, List.cons_append, List.forall_mem_cons, List.forall_mem_append]
      exact ⟨hlt, fun a ha => hlt.trans (hsides.2 a ha), hafter⟩
    · refine ihr (⟨k, v, p, false, l⟩ :: parents) h ?_ hafter
      simp only [before, Bool.false_eq_true, if_false, List.forall_mem_append,
        List.forall_mem_singleton]
      exact ⟨hbefore, fun a ha => (hsides.1 a ha).trans hgt, hgt⟩
    · obtain rfl : k = key := le_antisymm (not_lt.1 hlt) (not_lt.1 hgt)
      refine ⟨hbefore, hafter, ?_⟩
      rintro _ _ _ _ _ ⟨⟩
      exact ⟨rfl, hsides⟩

/-- A key splits the pairs of a treap: what `Get`, `Put` and `Delete` do with it is between the
smaller and the greater keys. -/
theorem Sorted.split (h : Sorted t) (key : K) : ∃ lower upper : List (K × V),
    (∀ a ∈ lower, a.1 < key) ∧ (∀ a ∈ upper, key < a.1) ∧
      toList t = lower ++ ((get key t).toList.map fun v => (key, v)) ++ upper ∧
      (∀ value priority, toList (put key value priority t) = lower ++ (key, value) :: upper) ∧
      toList (delete key t) = lower ++ upper := by
  have htree := congrArg toList (relink_find key t [])
  obtain ⟨hbefore, hafter, hhere⟩ := find_spec key [] h (by simp [before]) (by simp [after])
  rw [toList_relink] at htree
  unfold get put delete
  cases hfind : find key t [] with
  | mk here parents =>
    rw [hfind] at htree hbefore hafter hhere
    cases here with
    | nil =>
      refine ⟨before parents, after parents, hbefore,
        hafter, by simpa [toList, relink] using htree.symm, ?_, ?_⟩
      · intro value priority
        rw [toList_rotateUp]
        simp [toList]
      · simpa [toList, relink] using htree.symm
    | node k v p l r =>
      obtain ⟨rfl, hl, hr⟩ := hhere k v p l r rfl
      refine ⟨before parents ++ toList l, toList r ++ after parents, ?_, ?_, ?_, ?_, ?_⟩
      · exact List.forall_mem_append.2 ⟨hbefore, hl⟩
      · exact List.forall_mem_append.2 ⟨hr, hafter⟩
      · simpa [toList, relink] using htree.symm
      · intro value priority
        rw [toList_relink]
        simp [toList]
      · change toList (rotateDown l r parents) = _
        rw [rotateDown_eq, toList_relink, toList_merge]
        simp

/-- `Put` keeps the keys in order. -/
theorem Sorted.put (h : Sorted t) (key : K) (value : V) (priority : ℤ) :
    Sorted (put key value priority t) := by
  obtain ⟨lower, upper, hlower, hupper, ht, hput, -⟩ := h.split key
  rw [Sorted, ht] at h
  rw [Sorted, hput]
  simp only [List.pairwise_append, List.pairwise_cons, List.mem_append, List.mem_cons] at h ⊢
  grind

/-- `Delete` keeps the keys in order. -/
theorem Sorted.delete (h : Sorted t) (key : K) : Sorted (delete key t) := by
  obtain ⟨lower, upper, -, -, ht, -, hdelete⟩ := h.split key
  rw [Sorted, ht] at h
  rw [Sorted, hdelete]
  exact h.sublist ((List.sublist_append_left _ _).append_right _)

theorem not_mem_of_split {key : K} {lower upper : List (K × V)} (hlower : ∀ a ∈ lower, a.1 < key)
    (hupper : ∀ a ∈ upper, key < a.1) (value : V) : (key, value) ∉ lower ∧ (key, value) ∉ upper :=
  ⟨fun hmem => lt_irrefl _ (hlower _ hmem), fun hmem => lt_irrefl _ (hupper _ hmem)⟩

/-- `Get` finds the pairs of the walk. -/
theorem Sorted.mem_toList_iff (h : Sorted t) {key : K} {value : V} :
    (key, value) ∈ toList t ↔ get key t = some value := by
  obtain ⟨lower, upper, hlower, hupper, ht, -, -⟩ := h.split key
  rw [ht]
  simp [not_mem_of_split hlower hupper value]

/-- What is found after `Put`. -/
theorem Sorted.get_put (h : Sorted t) (key j : K) (value : V) (priority : ℤ) :
    get j (Treap.put key value priority t) = if key = j then some value else get j t := by
  obtain ⟨lower, upper, hlower, hupper, ht, hput, -⟩ := h.split key
  refine Option.ext fun v => ?_
  rw [← (h.put key value priority).mem_toList_iff, hput]
  split_ifs with hj
  · subst hj
    simp [not_mem_of_split hlower hupper v, eq_comm]
  · rw [← h.mem_toList_iff, ht]
    simp [Ne.symm hj, hj]

/-- What is found after `Delete`. -/
theorem Sorted.get_delete (h : Sorted t) (key j : K) :
    get j (Treap.delete key t) = if key = j then none else get j t := by
  obtain ⟨lower, upper, hlower, hupper, ht, -, hdelete⟩ := h.split key
  refine Option.ext fun v => ?_
  rw [← (h.delete key).mem_toList_iff, hdelete]
  split_ifs with hj
  · subst hj
    simp [not_mem_of_split hlower hupper v]
  · rw [← h.mem_toList_iff, ht]
    simp [hj]

/-! ## Priorities through operations -/

theorem Ordered.find (h : Ordered t) (key : K) :
    Ordered (find key t []).1 ∧ Fits (find key t []).1 (find key t []).2 := by
  rw [← ordered_relink, relink_find]
  exact h

/-- `Put` keeps the priorities in order. -/
theorem Ordered.put (h : Ordered t) (key : K) (value : V) (priority : ℤ) :
    Ordered (put key value priority t) := by
  obtain ⟨hnode, hfits⟩ := h.find key
  unfold Treap.put
  split
  next parents hfind =>
    rw [hfind] at hfits
    exact ordered_rotateUp key value trivial trivial trivial trivial hfits hfits
  next k v p l r parents hfind =>
    rw [hfind] at hnode hfits
    exact ordered_relink.2 ⟨hnode, hfits.congr fun _ hp => hp⟩

/-- The two children of the node with a key can be merged in order. -/
def MergesInOrder (key : K) (t : TreapNode K V) : Prop :=
  ∀ k v p l r parents, find key t [] = (node k v p l r, parents) →
    ∀ p ∈ rightSpine l, ∀ q ∈ priority? r, p = q

/-- `Delete` keeps them in order iff the merge does. -/
theorem Ordered.delete_iff (h : Ordered t) (key : K) :
    Ordered (delete key t) ↔ MergesInOrder key t := by
  obtain ⟨hnode, hfits⟩ := h.find key
  unfold delete MergesInOrder
  split
  next parents hfind => simp [hfind, h]
  next k v p l r parents hfind =>
    rw [hfind] at hnode hfits
    have hmerged : Fits (merge l r) parents :=
      hfits.congr fun q hq => atLeast_merge (hnode.1.mono hq) (hnode.2.1.mono hq)
    rw [rotateDown_eq, ordered_relink, ordered_merge_iff hnode.2.2.1 hnode.2.2.2,
      and_iff_left hmerged, hfind]
    simp only [Prod.mk.injEq, TreapNode.node.injEq]
    constructor
    · rintro hspine _ _ _ _ _ _ ⟨⟨-, -, -, rfl, rfl⟩, -⟩
      exact hspine
    · exact fun hspine => hspine k v p l r parents ⟨⟨rfl, rfl, rfl, rfl, rfl⟩, rfl⟩

/-- One more operation. -/
theorem run_append (ops : List (Op K V)) (op : Op K V) :
    run (ops ++ [op]) = op.apply (run ops) := by
  simp [run]

/-- A treap is in order throughout operations exactly where every node is deleted from children that
can be merged in order. -/
theorem ordered_throughout_iff (ops : List (Op K V)) : (∀ done, done <+: ops → Ordered (run done)) ↔
    ∀ done key, done ++ [.delete key] <+: ops → MergesInOrder key (run done) := by
  constructor
  · intro h done key hdone
    have hbefore := h done ((List.prefix_append _ _).trans hdone)
    have hafter := h _ hdone
    rw [run_append] at hafter
    exact (hbefore.delete_iff key).1 hafter
  · intro h done hdone
    induction done using List.reverseRecOn with
    | nil => trivial
    | append_singleton done op ih =>
      have hbefore := ih ((List.prefix_append _ _).trans hdone)
      rw [run_append]
      cases op with
      | put key value priority => exact hbefore.put key value priority
      | delete key => exact (hbefore.delete_iff key).2 (h done key hdone)

/-- A root with two children of different priorities is deleted: the child with the greater one is
lifted above the other. -/
theorem exists_delete_not_ordered : let ops : List (Op ℕ Unit) :=
  [.put 2 () 0, .put 1 () 1, .put 3 () 2, .delete 2]
    run ops = node 3 () 2 (node 1 () 1 nil nil) nil ∧ ¬ Ordered (run ops) := by
  have hrun : run [.put 2 () 0, .put 1 () 1, .put 3 () 2, .delete 2] =
      node 3 () 2 (node 1 () 1 nil nil) nil := by
    simp [run, Op.apply, put, delete, find, rotateUp, rotateDown, relink, Parent.link]
  exact ⟨hrun, by rw [hrun]; simp [Ordered, AtLeast]⟩

end Hcashd.Treap
