import Hcashd.Blockchain.KeyLinks

/-!
# Walks over key blocks

`getPrevKeyNodeFromNode` and `ancestorKeyNode`, by which the voting and the ticket price go back
from key block to key block. A node is given by its branch: the block, then its ancestors down to
the genesis block; the nil node is the empty branch. `b.index` is any table that finds branches by
the hash of their first block.

On a branch whose headers name the key blocks before them, the walks only see the key blocks:
`getPrevKeyNodeFromNode` is `prevKey`, which drops micro blocks, whatever the table holds.
-/

namespace Hcashd.Blockchain.Voting

open Lib Stake List

/-- A block node with all its ancestors, newest first. -/
abbrev Branch := List MsgBlock

/-- The hash of a node, which is zero for the nil node. -/
def nodeHash (env : Env) : Branch → Hash
  | [] => 0
  | b :: _ => env.blockHash b.header

variable (env : Env) (index : Hash → Option Branch)

/-- Whether a block is a key block. -/
def isKey (b : MsgBlock) : Bool := isKeyBlock env b.header

/-- The nearest key block, the node itself included. -/
def lastKey (node : Branch) : Branch := node.dropWhile fun b => !isKey env b

/-- The branch of the last key block before the first block of a branch. -/
def prevKey (node : Branch) : Branch := lastKey env node.tail

/-- `getPrevKeyNodeFromNode`. Where the key block that the header names is not in the index, the
first key block below is taken, and reading a key block below the genesis block panics. -/
def getPrevKeyNodeFromNode : Branch → Except Err Branch
  | [] => .error .panic
  | b :: below =>
    if env.blockHash b.header = env.blockHash env.params.genesisBlock.header then pure []
    else if b.header.prevKeyBlock = 0 then pure []
    else match index b.header.prevKeyBlock with
      | some node => pure node
      | none => match lastKey env below with
        | [] => .error .panic
        | node => pure node

/-- `if !node.isKeyBlock { node = b.getPrevKeyNodeFromNode(node) }`. -/
def toKeyNode : Branch → Except Err Branch
  | [] => .error .panic
  | b :: below =>
    if isKey env b then pure (b :: below) else getPrevKeyNodeFromNode env index (b :: below)

/-- The loop of `ancestorKeyNode`. There is no block with the zero hash that the genesis block
names. -/
def ancestorLoop (keyheight : ℤ) : Branch → Except Err Branch
  | [] => .error .other
  | b :: below =>
    if keyheight < b.header.keyHeight + 1 ∨ isKey env b = false then ancestorLoop keyheight below
    else pure (b :: below)

/-- `ancestorKeyNode`: the key block at a key height, by the names in the headers. -/
def ancestorKeyNode (node : Branch) (keyheight : ℤ) : Except Err Branch := do
  let node ← toKeyNode env index node
  match node with
  | [] => .error .panic
  | b :: _ =>
    if (b.header.keyHeight : ℤ) + 1 < keyheight ∨ keyheight < 0 then pure []
    else ancestorLoop env keyheight node

/-- The loop that visits a number of key blocks, or all down to the first one. -/
def keyWindow : ℕ → Branch → Except Err (List MsgBlock)
  | 0, _ => pure []
  | _ + 1, [] => pure []
  | n + 1, b :: below => do
    let prev ← getPrevKeyNodeFromNode env index (b :: below)
    let window ← keyWindow n prev
    pure (b :: window)

/-- The loop that goes back to a key height, nil if there is no such key block. Each turn leads to
an older block, so that there are not more turns than blocks. -/
def keyWalk (keyHeight : ℤ) : ℕ → Branch → Except Err Branch
  | _, [] => pure []
  | 0, _ => .error .outOfFuel
  | fuel + 1, b :: below =>
    if keyHeight < b.header.keyHeight then do
      let prev ← getPrevKeyNodeFromNode env index (b :: below)
      keyWalk keyHeight fuel prev
    else pure (b :: below)

/-! ## Branches that name their key blocks -/

/-- The key blocks of a branch, the newest first. -/
def keys (node : Branch) : List MsgBlock := node.filter (isKey env)

/-- A branch from the genesis block whose headers name the key blocks before them, and which the
index holds under no other hash. -/
structure Named (node : Branch) : Prop where
  named : KeysNamed env (node.map MsgBlock.header)
  genesis : ∀ b below, b :: below <:+ node →
    (env.blockHash b.header = env.blockHash env.params.genesisBlock.header ↔ below = [])
  hash_ne_zero : ∀ b ∈ node, isKey env b = true → env.blockHash b.header ≠ 0
  indexed : ∀ b below, b :: below <:+ node → ∀ n, index (env.blockHash b.header) = some n →
    n = b :: below

variable {env index}

variable {b : MsgBlock} {below : Branch}

theorem lastKey_cons_of_key (h : isKey env b = true) : lastKey env (b :: below) = b :: below := by
  simp [lastKey, h]

theorem lastKey_cons_of_micro (h : isKey env b = false) :
    lastKey env (b :: below) = lastKey env below := by
  simp [lastKey, h]

/-- The last key block is an ancestor. -/
theorem lastKey_suffix (node : Branch) : lastKey env node <:+ node := dropWhile_suffix _

/-- A branch is empty or begins with a key block. -/
def KeyHead (env : Env) (node : Branch) : Prop := ∀ b ∈ node.head?, isKey env b = true

theorem keyHead_cons : KeyHead env (b :: below) ↔ isKey env b = true := by
  simp [KeyHead]

/-- The last key block is a key block. -/
theorem keyHead_lastKey (node : Branch) : KeyHead env (lastKey env node) := by
  intro b hb
  have hnot := head?_dropWhile_not (fun b => !isKey env b) node
  rw [show node.dropWhile (fun b => !isKey env b) = lastKey env node from rfl,
    Option.mem_def.1 hb] at hnot
  simpa using hnot

variable {node s : Branch} {keyHeight : ℤ}

theorem KeyHead.lastKey_eq (h : KeyHead env node) : lastKey env node = node := by
  cases node with
  | nil => rfl
  | cons b below => exact lastKey_cons_of_key (keyHead_cons.1 h)

@[simp]
theorem keys_nil : keys env [] = [] := rfl

theorem keys_cons_of_key (h : isKey env b = true) :
    keys env (b :: below) = b :: keys env below := filter_cons_of_pos h

theorem keys_cons_of_micro (h : isKey env b = false) :
    keys env (b :: below) = keys env below := filter_cons_of_neg (by simp [h])

/-- Micro blocks on top change no key block. -/
@[simp]
theorem keys_lastKey (node : Branch) : keys env (lastKey env node) = keys env node := by
  induction node with
  | nil => rfl
  | cons b below ih =>
    cases h : isKey env b with
    | true => rw [lastKey_cons_of_key h]
    | false => rw [lastKey_cons_of_micro h, ih, keys_cons_of_micro h]

/-- The nearest key block that headers name is the first block of the branch from it on. -/
theorem nearestKeyHash_eq (node : Branch) :
    nearestKeyHash env (node.map MsgBlock.header) = nodeHash env (lastKey env node) := by
  induction node with
  | nil => rfl
  | cons b below ih =>
    rw [map_cons]
    cases h : isKey env b with
    | true => rw [lastKey_cons_of_key h, nearestKeyHash,
        find?_cons_of_pos (show isKeyBlock env b.header = true from h)]; rfl
    | false => rw [lastKey_cons_of_micro h, nearestKeyHash_cons_of_micro h, ih]

theorem keysNamed_of_suffix {s l : List BlockHeader} (h : KeysNamed env l) (hs : s <:+ l) :
    KeysNamed env s := by
  obtain ⟨front, rfl⟩ := hs
  induction front with
  | nil => exact h
  | cons a front ih => exact ih h.2

/-- Ancestors of a named branch are named. -/
theorem Named.of_suffix (h : Named env index node) (hs : s <:+ node) : Named env index s where
  named := keysNamed_of_suffix h.named (hs.map _)
  genesis := fun b below hb => h.genesis b below (hb.trans hs)
  hash_ne_zero := fun b hb => h.hash_ne_zero b (hs.subset hb)
  indexed := fun b below hb => h.indexed b below (hb.trans hs)

/-- The parent of a named branch is named. -/
theorem Named.tail (h : Named env index (b :: below)) : Named env index below :=
  h.of_suffix (suffix_cons b below)

/-- The last key block of a named branch is named. -/
theorem Named.lastKey (h : Named env index node) : Named env index (lastKey env node) :=
  h.of_suffix (lastKey_suffix node)

/-- On a named branch the key block before a block is found whatever the index holds. -/
theorem Named.getPrevKeyNodeFromNode (h : Named env index (b :: below)) :
    getPrevKeyNodeFromNode env index (b :: below) = .ok (Voting.lastKey env below) := by
  have hname : b.header.prevKeyBlock = nodeHash env (Voting.lastKey env below) :=
    h.named.1.trans (nearestKeyHash_eq below)
  rw [Voting.getPrevKeyNodeFromNode]
  split_ifs with hgenesis hzero
  · rw [(h.genesis b below (suffix_refl _)).1 hgenesis]
    rfl
  · -- No key block has the zero hash.
    cases hkey : Voting.lastKey env below with
    | nil => rfl
    | cons k rest =>
      rw [hname, hkey] at hzero
      have hmem : k ∈ b :: below :=
        mem_cons_of_mem _ ((lastKey_suffix below).subset (hkey ▸ mem_cons_self))
      exact absurd hzero (h.hash_ne_zero k hmem (keyHead_cons.1 (hkey ▸ keyHead_lastKey below)))
  · cases hkey : Voting.lastKey env below with
    | nil => exact absurd (hname.trans (by rw [hkey]; rfl)) hzero
    | cons k rest =>
      have hsuffix : k :: rest <:+ b :: below :=
        (hkey ▸ lastKey_suffix below).trans (suffix_cons b below)
      rw [hname, hkey]
      cases hindex : index (nodeHash env (k :: rest)) with
      | none => rfl
      | some n => rw [h.indexed k rest hsuffix n hindex]; rfl

/-- `toKeyNode` finds the last key block. -/
theorem Named.toKeyNode (h : Named env index (b :: below)) :
    toKeyNode env index (b :: below) = .ok (Voting.lastKey env (b :: below)) := by
  rw [Voting.toKeyNode]
  split_ifs with hkey
  · rw [lastKey_cons_of_key hkey]
    rfl
  · rw [h.getPrevKeyNodeFromNode, lastKey_cons_of_micro (by simpa using hkey)]

/-- The walk over key blocks takes the last ones of the branch. -/
theorem Named.keyWindow (h : Named env index node) (hhead : KeyHead env node) (n : ℕ) :
    keyWindow env index n node = .ok ((keys env node).take n) := by
  induction n generalizing node with
  | zero => rw [take_zero]; rfl
  | succ n ih =>
    cases node with
    | nil => rfl
    | cons b below =>
      rw [Voting.keyWindow, h.getPrevKeyNodeFromNode, keys_cons_of_key (keyHead_cons.1 hhead)]
      change (Voting.keyWindow env index n (Voting.lastKey env below) >>= _) = _
      rw [ih h.tail.lastKey (keyHead_lastKey below), keys_lastKey]
      rfl

/-- A branch from its last key block on whose key height is not above a bound. -/
def atKeyHeight (env : Env) (keyHeight : ℤ) (node : Branch) : Branch :=
  node.dropWhile fun b => !isKey env b || decide (keyHeight < b.header.keyHeight)

/-- The block at a key height is an ancestor. -/
theorem atKeyHeight_suffix (keyHeight : ℤ) (node : Branch) :
    atKeyHeight env keyHeight node <:+ node :=
  dropWhile_suffix _

theorem atKeyHeight_cons_of_le (hkey : isKey env b = true)
    (hle : (b.header.keyHeight : ℤ) ≤ keyHeight) :
    atKeyHeight env keyHeight (b :: below) = b :: below := by
  simp [atKeyHeight, hkey, hle]

theorem atKeyHeight_cons_of_not (h : isKey env b = false ∨ keyHeight < b.header.keyHeight) :
    atKeyHeight env keyHeight (b :: below) = atKeyHeight env keyHeight below := by
  obtain h | h := h <;> simp [atKeyHeight, h]

@[simp]
theorem atKeyHeight_lastKey (keyHeight : ℤ) (node : Branch) :
    atKeyHeight env keyHeight (lastKey env node) = atKeyHeight env keyHeight node := by
  induction node with
  | nil => rfl
  | cons b below ih =>
    cases h : isKey env b with
    | true => rw [lastKey_cons_of_key h]
    | false => rw [lastKey_cons_of_micro h, ih, atKeyHeight_cons_of_not (.inl h)]

/-- It is a key block. -/
theorem keyHead_atKeyHeight (keyHeight : ℤ) (node : Branch) :
    KeyHead env (atKeyHeight env keyHeight node) := by
  intro b hb
  have hnot :=
    head?_dropWhile_not (fun b => !isKey env b || decide (keyHeight < b.header.keyHeight)) node
  rw [show node.dropWhile _ = atKeyHeight env keyHeight node from rfl, Option.mem_def.1 hb] at hnot
  simp only [Bool.or_eq_false_iff, Bool.not_eq_false'] at hnot
  exact hnot.1

/-- The key blocks up to a key height. -/
theorem keys_atKeyHeight (keyHeight : ℤ) (node : Branch) :
    keys env (atKeyHeight env keyHeight node) =
      (keys env node).dropWhile fun b => decide (keyHeight < b.header.keyHeight) := by
  induction node with
  | nil => rfl
  | cons b below ih =>
    cases h : isKey env b with
    | false => rw [atKeyHeight_cons_of_not (.inl h), ih, keys_cons_of_micro h]
    | true =>
      rw [keys_cons_of_key h]
      by_cases hlt : keyHeight < b.header.keyHeight
      · rw [atKeyHeight_cons_of_not (.inr hlt), ih, dropWhile_cons_of_pos (by simpa using hlt)]
      · rw [atKeyHeight_cons_of_le h (not_lt.1 hlt), keys_cons_of_key h,
          dropWhile_cons_of_neg (by simpa using hlt)]

/-- With enough fuel the walk ends at the key height. -/
theorem Named.keyWalk (h : Named env index node) (hhead : KeyHead env node)
    (keyHeight : ℤ) {fuel : ℕ} (hfuel : node.length ≤ fuel) :
    keyWalk env index keyHeight fuel node = .ok (atKeyHeight env keyHeight node) := by
  induction fuel generalizing node with
  | zero =>
    obtain rfl := length_eq_zero_iff.1 (Nat.le_zero.1 hfuel)
    rfl
  | succ fuel ih =>
    cases node with
    | nil => rfl
    | cons b below =>
      rw [Voting.keyWalk]
      split_ifs with hlt
      · rw [h.getPrevKeyNodeFromNode, atKeyHeight_cons_of_not (.inr hlt), ← atKeyHeight_lastKey]
        have hle : (Voting.lastKey env below).length ≤ below.length :=
          (lastKey_suffix below).length_le
        rw [length_cons] at hfuel
        exact ih h.tail.lastKey (keyHead_lastKey below) (by omega)
      · rw [atKeyHeight_cons_of_le (keyHead_cons.1 hhead) (not_lt.1 hlt)]
        rfl

/-- The loop of `ancestorKeyNode` in closed form. -/
theorem ancestorLoop_eq (keyheight : ℤ) (node : Branch) : ancestorLoop env keyheight node =
      if atKeyHeight env (keyheight - 1) node = [] then .error .other
      else .ok (atKeyHeight env (keyheight - 1) node) := by
  induction node with
  | nil => rfl
  | cons b below ih =>
    rw [ancestorLoop]
    by_cases hgo : keyheight < b.header.keyHeight + 1 ∨ isKey env b = false
    · rw [if_pos hgo, ih, atKeyHeight_cons_of_not (hgo.symm.imp_right fun h => by omega)]
    · obtain ⟨hle, hkey⟩ := not_or.1 hgo
      rw [if_neg hgo, atKeyHeight_cons_of_le (by simpa using hkey) (by omega),
        if_neg (cons_ne_nil _ _)]
      rfl

/-- `ancestorKeyNode` on a named branch. -/
theorem Named.ancestorKeyNode (h : Named env index node) {k : MsgBlock} {rest : Branch}
    (hlast : Voting.lastKey env node = k :: rest) (keyheight : ℤ) :
    ancestorKeyNode env index node keyheight = if (k.header.keyHeight : ℤ) + 1 < keyheight ∨
    keyheight < 0 then .ok []
      else if atKeyHeight env (keyheight - 1) node = [] then .error .other
      else .ok (atKeyHeight env (keyheight - 1) node) := by
  cases node with
  | nil => simp [Voting.lastKey] at hlast
  | cons b below =>
    rw [Voting.ancestorKeyNode, h.toKeyNode, hlast, ← atKeyHeight_lastKey, hlast]
    change (if _ then _ else _) = _
    rw [ancestorLoop_eq]
    rfl

section Nodes

variable {node top : Branch} {P : MsgBlock → Branch → Prop}

/-- What is said of all blocks of a branch and what is below them, block by block. -/
theorem forall_suffix_cons_iff {b : MsgBlock} {below : Branch} :
    (∀ a rest, a :: rest <:+ b :: below → P a rest) ↔ P b below ∧ ∀ a rest, a :: rest <:+ below →
    P a rest := by
  constructor
  · exact fun h => ⟨h b below (suffix_refl _), fun a rest hs =>
      h a rest (hs.trans (suffix_cons b below))⟩
  · rintro ⟨hb, hbelow⟩ a rest hs
    obtain heq | hs := suffix_cons_iff.1 hs
    · obtain ⟨rfl, rfl⟩ := cons.inj heq
      exact hb
    · exact hbelow a rest hs

/-- The blocks that a branch adds to an ancestor, the lowest one first. -/
@[elab_as_elim]
theorem suffix_induction {anc : Branch} {P : Branch → Prop} (hs : anc <:+ node) (base : P anc)
    (step : ∀ b below, b :: below <:+ node → anc <:+ below → P below → P (b :: below)) :
    P node := by
  obtain ⟨front, rfl⟩ := hs
  induction front with
  | nil => exact base
  | cons b front ih =>
    refine step b _ (suffix_refl _) (suffix_append ..) (ih fun a below ha => step a below ?_)
    exact ha.trans (suffix_cons ..)

theorem forall_suffix_nil (a : MsgBlock) (rest : Branch) (hs : a :: rest <:+ []) : P a rest :=
  absurd (suffix_nil.1 hs) (cons_ne_nil a rest)

/-- What is said of all blocks of a branch is decided block by block. -/
instance decidableForallSuffix [∀ b below, Decidable (P b below)] :
    (node : Branch) → Decidable (∀ a rest, a :: rest <:+ node → P a rest)
  | [] => .isTrue forall_suffix_nil
  | _ :: below =>
    haveI := decidableForallSuffix below
    decidable_of_iff _ forall_suffix_cons_iff.symm

/-- The nodes of one branch, as a tree. -/
def branchTree (top : Branch) : Set Branch := {node | node <:+ top ∧ node ≠ []}

/-- An index of the nodes of one branch. -/
def branchIndex (env : Env) (top : Branch) (hash : Hash) : Option Branch :=
  top.tails.find? fun node => node ≠ [] ∧ nodeHash env node = hash

theorem mem_branchTree_of_branchIndex {hash : Hash}
    (h : branchIndex env top hash = some node) :
    node ∈ branchTree top ∧ nodeHash env node = hash := by
  have hfound := find?_some h
  simp only [decide_eq_true_eq] at hfound
  exact ⟨⟨(mem_tails _ _).1 (mem_of_find?_eq_some h), hfound.1⟩, hfound.2⟩

theorem eq_of_nodeHash_eq {top node' : Branch}
    (hnodup : (top.map fun b => env.blockHash b.header).Nodup)
    (hnode : node ∈ branchTree top) (hnode' : node' ∈ branchTree top)
    (hhash : nodeHash env node = nodeHash env node') : node = node' := by
  induction top with
  | nil => exact absurd (suffix_nil.1 hnode.1) hnode.2
  | cons b below ih =>
    rw [map_cons, nodup_cons] at hnodup
    have hnot : ∀ s, s <:+ below → s ≠ [] → nodeHash env s ≠ env.blockHash b.header := by
      intro s hs hne heq
      obtain ⟨a, rest, rfl⟩ := exists_cons_of_ne_nil hne
      exact hnodup.1 (mem_map.2 ⟨a, hs.subset mem_cons_self, heq⟩)
    obtain rfl | hs := suffix_cons_iff.1 hnode.1 <;> obtain rfl | hs' := suffix_cons_iff.1 hnode'.1
    · rfl
    · exact absurd hhash.symm (hnot _ hs' hnode'.2)
    · exact absurd hhash (hnot _ hs hnode.2)
    · exact ih hnodup.2 ⟨hs, hnode.2⟩ ⟨hs', hnode'.2⟩

/-- The index of a branch finds each of its nodes. -/
theorem branchIndex_indexed (hnodup : (top.map fun b => env.blockHash b.header).Nodup)
    (b : MsgBlock) (below : Branch) (hs : b :: below <:+ top) (n : Branch)
    (hn : branchIndex env top (env.blockHash b.header) = some n) : n = b :: below := by
  obtain ⟨hmem, hhash⟩ := mem_branchTree_of_branchIndex hn
  exact eq_of_nodeHash_eq hnodup hmem ⟨hs, cons_ne_nil _ _⟩ hhash

end Nodes

/-- The blocks of the main chain, newest first. -/
def branchOf (st : ChainState) : Branch := st.chain.map ChainBlock.block

variable {P : ChainState → MsgBlock → Prop} {st : ChainState}

theorem getLast?_branchOf_of_accepted (hst : Accepted env P st) :
    (branchOf st).getLast? = some env.params.genesisBlock := by
  induction hst with
  | genesis => rfl
  | @block st st' adjustedTime block _ _ hprocess ih =>
    obtain ⟨_, -, hprocess⟩ := bind_eq_ok.1 hprocess
    obtain ⟨c, -, hconnect⟩ := bind_eq_ok.1 hprocess
    simp only [connectBlock, bind_eq_ok, pure_eq_ok] at hconnect
    obtain ⟨_, -, stakeNode, -, rfl⟩ := hconnect
    rw [branchOf, ChainState.chain, map_cons, getLast?_cons]
    rw [branchOf] at ih
    rw [ih]
    rfl

/-- The blocks of an accepted chain have distinct hashes. -/
theorem nodup_branchOf_of_accepted (hgenesis : env.params.genesisBlock.header.prevKeyBlock = 0)
    (hst : Accepted env P st) : ((branchOf st).map fun b => env.blockHash b.header).Nodup := by
  have hnames := namesKeys_of_accepted hgenesis hst
  have hhash : (branchOf st).map (fun b => env.blockHash b.header) = st.chain.map fun b =>
      b.node.hash := by
    rw [branchOf, map_map]
    refine map_congr_left fun b hb => ?_
    rw [hnames.node b hb]
    rfl
  exact hhash ▸ hnames.nodup

/-- An accepted chain names its key blocks, if no key block has the zero hash and the index holds
the nodes of the chain only under their hashes. -/
theorem named_of_accepted (hgenesis : env.params.genesisBlock.header.prevKeyBlock = 0)
    (hzero : ∀ b ∈ branchOf st, isKey env b = true → env.blockHash b.header ≠ 0)
    (hindexed : ∀ b below, b :: below <:+ branchOf st →
      ∀ n, index (env.blockHash b.header) = some n →
      n = b :: below) (hst : Accepted env P st) : Named env index (branchOf st) := by
  have hnames := namesKeys_of_accepted hgenesis hst
  have hnodup := nodup_branchOf_of_accepted hgenesis hst
  have hlast := getLast?_branchOf_of_accepted hst
  refine ⟨by rw [branchOf, map_map]; exact hnames.linked, fun b below hs => ?_, hzero, hindexed⟩
  obtain ⟨above, happend⟩ := hs
  rw [← happend] at hnodup hlast
  rw [getLast?_append, getLast?_cons, Option.some_or, Option.some.injEq] at hlast
  constructor
  · intro heq
    by_contra hbelow
    rw [map_append, map_cons, nodup_append, nodup_cons] at hnodup
    refine hnodup.2.1.1 (mem_map.2 ⟨env.params.genesisBlock, ?_, heq.symm⟩)
    rw [← hlast, getLast?_eq_some_getLast hbelow]
    exact getLast_mem hbelow
  · rintro rfl
    rw [← hlast]
    rfl

/-- A named branch whose headers have as key height the number of key blocks before them. -/
structure KeyChained (env : Env) (index : Hash → Option Branch) (node : Branch) : Prop extends
    Named env index node where
  keyHeight : ∀ b below, b :: below <:+ node → b.header.keyHeight = (keys env below).length

/-- Ancestors of a chained branch are chained. -/
theorem KeyChained.of_suffix (h : KeyChained env index node) (hs : s <:+ node) :
    KeyChained env index s where
  toNamed := h.toNamed.of_suffix hs
  keyHeight := fun b below hb => h.keyHeight b below (hb.trans hs)

/-- The key blocks of a branch that begins with a key block are one more than its key height. -/
theorem KeyChained.length_keys (h : KeyChained env index (b :: below))
    (hkey : isKey env b = true) : (keys env (b :: below)).length = b.header.keyHeight + 1 := by
  rw [keys_cons_of_key hkey, length_cons, h.keyHeight b below (suffix_refl _)]

/-- Every key height up to that of a branch is the key height of one of its key blocks. -/
theorem KeyChained.exists_atKeyHeight (h : KeyChained env index node) {n : ℕ}
    (hn : n < (keys env node).length) :
    ∃ b below, atKeyHeight env n node = b :: below ∧ b.header.keyHeight = n := by
  induction node with
  | nil => simp at hn
  | cons b below ih =>
    have hb := h.keyHeight b below (suffix_refl _)
    have hbelow : KeyChained env index below := h.of_suffix (suffix_cons b below)
    by_cases hkey : isKey env b = true
    · rw [keys_cons_of_key hkey, length_cons] at hn
      by_cases hlt : n < b.header.keyHeight
      · rw [atKeyHeight_cons_of_not (.inr (by exact_mod_cast hlt))]
        exact ih hbelow (by omega)
      · refine ⟨b, below, atKeyHeight_cons_of_le hkey (by exact_mod_cast not_lt.1 hlt), by omega⟩
    · have hmicro : isKey env b = false := by simpa using hkey
      rw [keys_cons_of_micro hmicro] at hn
      rw [atKeyHeight_cons_of_not (.inl hmicro)]
      exact ih hbelow hn

end Hcashd.Blockchain.Voting
