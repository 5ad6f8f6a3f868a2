import Hcashd.Blockchain.Commitment
import Hcashd.Lib.TreeArray

/-!
# The array of a merkle tree

`BuildMerkleTreeStore` of `merkle.go`, with the array that it fills and every access to it. The
array has room for the rows of a tree over the next power of two, and what is filled in is read from
the front (`foldlM_storeParent`). The only access out of range is the one for the leaf of a micro
block, whose bytes are taken from a script that is asked to be two bytes shorter than they need
(`avoids_merkleRoot`). The last element of the array is the root that `Blockchain.Sanity` computes
(`buildMerkleTreeStore_last`).
-/

namespace Hcashd.Blockchain

open Lib List

section Store

variable (env : Env)

/-- The three cases of the last loop of `BuildMerkleTreeStore`. -/
def merkleNode : Option Hash → Option Hash → Option Hash
  | none, _ => none
  | some left, none => some (hashMerkleBranches env left left)
  | some left, some right => some (hashMerkleBranches env left right)

/-- A turn of the last loop of `BuildMerkleTreeStore`. The right child is not looked at without a
left one. -/
def storeParent (nextPoT : ℕ) (merkles : List (Option Hash)) (turn : ℕ) :
    Except Err (List (Option Hash)) := do
  match ← index .panic merkles (2 * turn) with
  | none => store .panic merkles (nextPoT + turn) none
  | some left => do
    let right ← index .panic merkles (2 * turn + 1)
    store .panic merkles (nextPoT + turn) (merkleNode env (some left) right)

/-- The loops of `BuildMerkleTreeStore` over the transactions and over the nodes. -/
def storeTree (nextPoT offset : ℕ) (transactions : List MsgTx) (merkles : List (Option Hash)) :
    Except Err (List (Option Hash)) := do
  let merkles ← transactions.zipIdx.foldlM
    (fun merkles (tx, i) => store .panic merkles (i + offset) (some (env.txHashFull tx))) merkles
  (range (nextPoT - 1)).foldlM (storeParent env nextPoT) merkles

/-- The leaf that is taken from the coinbase of a micro block. The thirty-two bytes are read one by
one. -/
def readCoinbaseLeaf (tx : MsgTx) : Except Err (Option Hash) :=
  if tx.txOut.length < 2 then pure none
  else do
    let out ← index .panic tx.txOut 0
    if out.pkScript.length < 36 then pure none
    else do
      let ens ← slice .panic out.pkScript 6 38
      pure (some (Hash.ofBytes ens))

/-- `BuildMerkleTreeStore`: the tree of hashes as an array, the leaves first. -/
def buildMerkleTreeStore (transactions : List MsgTx) (compressed : Bool) :
    Except Err (List (Option Hash)) :=
  let offset := if compressed then 1 else 0
  let nextPoT := nextPowerOfTwo (transactions.length + offset)
  let merkles := replicate (nextPoT * 2 - 1) none
  if transactions = [] then pure [some 0]
  else if compressed then do
    let coinbase ← index .panic transactions 0
    match ← readCoinbaseLeaf coinbase with
    | none => store .panic merkles 0 (some 0)
    | some leaf => do
      let merkles ← store .panic merkles 0 (some leaf)
      storeTree env nextPoT offset transactions merkles
  else storeTree env nextPoT offset transactions merkles

end Store

variable {env : Env}

theorem above_merkleNode (row : List (Option Hash)) :
    above (merkleNode env) row = merkleParents env row := by
  fun_induction merkleParents env row with
  | case1 left right row ih | case2 left row ih | case3 right row ih => rw [above, ih, merkleNode]
  | case4 row h1 h2 h3 =>
    rcases row with _ | ⟨_ | left, _ | ⟨_ | right, row⟩⟩
    · rfl
    · rfl
    · exact absurd rfl (h3 none row)
    · exact absurd rfl (h3 (some right) row)
    · rfl
    · exact absurd rfl (h2 left row)
    · exact absurd rfl (h1 left right row)

/-- The loop over the parents stores the rows above. -/
theorem foldlM_storeParent {height : ℕ} {row : List (Option Hash)} (h : row.length = 2 ^ height) :
    (range (2 ^ height - 1)).foldlM (storeParent env (2 ^ height))
    (row ++ replicate (2 ^ height - 1) none) =
      .ok (rows (merkleNode env) height row) := by
  refine foldlM_eq_of_turns (fun turn merkles merkles' hturn => ?_)
    (foldlM_fillTurn (merkleNode env) h Err.panic none)
  simp only [fillTurn, bind_eq_ok] at hturn
  obtain ⟨left, hleft, right, hright, hstore⟩ := hturn
  rw [storeParent, hleft, ok_bind]
  cases left with
  | none => exact hstore
  | some left =>
    rw [hright]
    exact hstore

/-- The loop over the transactions stores the leaves. -/
theorem foldlM_store (hash : MsgTx → Option Hash) (transactions : List MsgTx)
    (start offset missing : ℕ) {done : List (Option Hash)} (hdone : done.length = start + offset) :
    (transactions.zipIdx start).foldlM (fun merkles (tx, i) =>
      store Err.panic merkles (i + offset) (hash tx))
      (done ++ replicate (transactions.length + missing) none) =
      .ok (done ++ transactions.map hash ++ replicate missing none) := by
  induction transactions generalizing start done with
  | nil => simp [pure, Except.pure]
  | cons tx transactions ih =>
    have hroom :
        start + offset <
          (done ++ replicate ((tx :: transactions).length + missing) none).length := by
      rw [length_append, length_replicate, length_cons]
      omega
    have hset : (done ++ replicate ((tx :: transactions).length + missing) none).set
        (start + offset) (hash tx) =
        (done ++ [hash tx]) ++ replicate (transactions.length + missing) none := by
      rw [set_append_right _ _ hdone.le, hdone, Nat.sub_self, length_cons, Nat.succ_add,
        replicate_succ, set_cons_zero, append_assoc]
      rfl
    rw [zipIdx_cons, foldlM_cons]
    dsimp only
    rw [store_of_lt hroom, ok_bind, hset,
      ih (start + 1) (by rw [length_append, hdone, length_singleton]; omega),
      map_cons, append_assoc done]
    rfl

variable {transactions : List MsgTx}

/-- The last entry of the store is the top of the tree. -/
theorem storeTree_last (env : Env) (first : List (Option Hash)) (hne : transactions ≠ []) :
    (storeTree env (nextPowerOfTwo (transactions.length + first.length)) first.length transactions
        (first ++ replicate
          (nextPowerOfTwo (transactions.length + first.length) * 2 - 1 - first.length) none) >>=
      fun merkles => index .panic merkles (merkles.length - 1)) =
      .ok (merkleTop env (first ++ transactions.map fun tx => some (env.txHashFull tx))) := by
  have hpos := length_pos_iff.2 hne
  obtain ⟨height, hwidth, hle⟩ :
    ∃ height, nextPowerOfTwo (transactions.length + first.length) = 2 ^ height ∧
      transactions.length + first.length ≤ 2 ^ height :=
    ⟨_, nextPowerOfTwo_eq (by omega), Nat.le_pow_clog one_lt_two _⟩
  -- the leaves, the room that is left in their row, and the rows above it
  obtain ⟨missing, hmissing⟩ := Nat.exists_eq_add_of_le hle
  have hroom : 2 ^ height * 2 - 1 - first.length =
      transactions.length + (missing + (2 ^ height - 1)) := by omega
  have hleaves := foldlM_store (fun tx => some (env.txHashFull tx)) transactions 0 first.length
    (missing + (2 ^ height - 1)) (Nat.zero_add first.length).symm
  have hrow : ((first ++ transactions.map fun tx => some (env.txHashFull tx)) ++
      replicate missing none).length = 2 ^ height := by
    rw [length_append, length_append, length_map, length_replicate]
    omega
  have hlast := getLast?_rows (merkleNode env) hrow
  rw [getLast?_eq_getElem?, show above (merkleNode env) =
    merkleParents env from funext above_merkleNode] at hlast
  have hsome :
      (rows (merkleNode env) height
        ((first ++ transactions.map fun tx => some (env.txHashFull tx)) ++
      replicate missing none)).length - 1 < (rows (merkleNode env) height
        ((first ++ transactions.map fun tx => some (env.txHashFull tx)) ++
          replicate missing none)).length := by
    rw [length_rows (merkleNode env) hrow]
    omega
  rw [hwidth, hroom, storeTree, hleaves, ok_bind, replicate_add, ← append_assoc,
    foldlM_storeParent hrow, ok_bind, index_of_lt hsome]
  rw [getElem?_eq_getElem hsome] at hlast
  rw [merkleTop, length_append, length_map, Nat.add_comm first.length, hwidth,
    Nat.log2_two_pow, hmissing, Nat.add_sub_cancel_left, ← hlast]
  rfl

theorem readCoinbaseLeaf_eq (tx : MsgTx) (transactions : List MsgTx) :
    readCoinbaseLeaf tx = compressedLeaf (tx :: transactions) := by
  obtain ⟨version, txIn, txOut, lockTime, expiry⟩ := tx
  rw [readCoinbaseLeaf]
  match txOut with
  | [] | [out] => rfl
  | out :: second :: outs =>
    rw [if_neg (by simp), index_of_lt (by simp), ok_bind, getElem_cons_zero, compressedLeaf]
    by_cases hshort : out.pkScript.length < 36
    · rw [if_pos hshort, rejectIf_bind (by omega), if_pos hshort]
    · rw [if_neg hshort, if_neg hshort]
      by_cases hwindow : out.pkScript.length < 38
      · rw [rejectIf, if_pos ⟨by omega, hwindow⟩, slice, if_neg (by omega)]
        rfl
      · rw [rejectIf, if_neg (by omega), slice_of_le (by omega) (by omega), ok_bind, ok_bind,
          drop_take]
        simp [Hash.ofBytes, take_take]

/-- The root that `BuildMerkleTreeStore` leaves is `merkleRoot`. -/
theorem buildMerkleTreeStore_last (transactions : List MsgTx) (compressed : Bool) :
    (buildMerkleTreeStore env transactions compressed >>= fun merkles =>
      index .panic merkles (merkles.length - 1)) =
      merkleRoot env transactions compressed := by
  match transactions with
  | [] => rfl
  | tx :: transactions =>
    rw [buildMerkleTreeStore, if_neg (cons_ne_nil _ _), merkleRoot, if_neg (cons_ne_nil _ _)]
    cases compressed with
    | false => exact storeTree_last env [] (cons_ne_nil tx transactions)
    | true =>
      have hlength : (tx :: transactions).length + 1 ≠ 0 := Nat.succ_ne_zero _
      obtain ⟨room, hroom⟩ :
        ∃ room, nextPowerOfTwo ((tx :: transactions).length + 1) * 2 - 1 = room + 2 := by
        have hle : (tx :: transactions).length + 1 ≤
            nextPowerOfTwo ((tx :: transactions).length + 1) := by
          rw [nextPowerOfTwo_eq hlength]
          exact Nat.le_pow_clog one_lt_two _
        rw [length_cons] at hle ⊢
        exact ⟨nextPowerOfTwo (transactions.length + 1 + 1) * 2 - 3, by omega⟩
      rw [if_pos rfl, if_pos rfl, if_pos rfl, index_of_lt (by simp), ok_bind, getElem_cons_zero,
        readCoinbaseLeaf_eq tx transactions, hroom]
      rcases compressedLeaf (tx :: transactions) with e | _ | leaf
      · rfl
      · -- the array is returned with its first element only
        rw [ok_bind, ok_bind]
        rw [store_of_lt (by simp), ok_bind, replicate_succ, set_cons_zero, length_cons,
          length_replicate, Nat.add_sub_cancel]
        refine index_eq_ok.2 ?_
        rw [getElem?_cons_succ, getElem?_replicate, if_pos (by omega)]
        rfl
      · have hlast := storeTree_last env [some leaf] (cons_ne_nil tx transactions)
        rw [length_singleton, hroom] at hlast
        rw [ok_bind, ok_bind]
        dsimp only
        rw [store_of_lt (by simp), ok_bind, replicate_succ, set_cons_zero]
        exact hlast

/-- The scripts from which the leaf of a micro block cannot be read. -/
def ShortWindow (transactions : List MsgTx) : Prop :=
  ∃ tx ∈ transactions.head?, 2 ≤ tx.txOut.length ∧ ∃ out ∈ tx.txOut.head?,
    out.pkScript.length = 36 ∨ out.pkScript.length = 37

/-- The compressed leaf panics on a coinbase that is too short. -/
theorem avoids_compressedLeaf {tx : MsgTx} :
    Avoids .panic (compressedLeaf (tx :: transactions)) ↔ ¬ ShortWindow (tx :: transactions) := by
  obtain ⟨version, txIn, txOut, lockTime, expiry⟩ := tx
  match txOut with
  | [] | [out] => simp [compressedLeaf, ShortWindow]
  | out :: second :: outs =>
    rw [compressedLeaf, avoids_bind, avoids_rejectIf]
    simp only [avoids_pure, implies_true, and_true, ne_eq, not_true_eq_false, imp_false,
      ShortWindow, head?_cons, Option.mem_some_iff, exists_eq_left', length_cons]
    omega

/-- `BuildMerkleTreeStore` stays in range unless it compresses a block with such a script. -/
theorem avoids_merkleRoot {compressed : Bool} :
    Avoids .panic (merkleRoot env transactions compressed) ↔
    (compressed = true → ¬ ShortWindow transactions) := by
  match transactions with
  | [] => exact iff_of_true (avoids_pure _) fun _ => by simp [ShortWindow]
  | tx :: transactions =>
    rw [merkleRoot, if_neg (cons_ne_nil _ _)]
    cases compressed with
    | false => exact iff_of_true (avoids_pure _) fun h => absurd h Bool.false_ne_true
    | true =>
      rw [if_pos rfl, avoids_bind, avoids_compressedLeaf]
      simp

end Hcashd.Blockchain
