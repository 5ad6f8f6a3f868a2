import Hcashd.Lib.Merkle
import Hcashd.Blockchain.BlockRun

/-!
# What a header commits to

Two blocks with one header that pass the context-free checks have the same regular transactions, and
key blocks have the same stake transactions too. The merkle root does not say how many leaves it was
built from; that no leaf is repeated is what the check for duplicate transactions is needed for.
Nothing in the header of a micro block depends on its stake transactions, so they can be dropped
from the block (`commits_law`).
-/

namespace Hcashd.Blockchain

open Lib Stake List

section Spec

variable (env : Env)

/-- The leaves of the regular tree: a micro block has one more than it has transactions. -/
def regularLeaves (block : MsgBlock) : List Hash :=
  let hashes := block.transactions.map env.txHashFull
  if isKeyBlock env block.header then hashes
  else match compressedLeaf block.transactions with
    | .ok (some leaf) => leaf :: hashes
    | _ => hashes

/-- The pairs that are hashed to get from a row of leaves to its root. -/
def hashedPairs (leaves : List Hash) : List (Hash × Hash) :=
  hashed (hashMerkleBranches env) (treeHeight leaves) leaves

/-- The two hash functions have no collision on what they are applied to. -/
structure CollisionFree (txs : Set MsgTx) (pairs : Set (Hash × Hash)) : Prop where
  txHashFull : Set.InjOn env.txHashFull txs
  branches : Set.InjOn (fun p => hashMerkleBranches env p.1 p.2) pairs
  leaf : ∀ tx ∈ txs, ∀ p ∈ pairs, hashMerkleBranches env p.1 p.2 ≠ env.txHashFull tx

/-- What is hashed when a block is checked. The stake tree of a micro block is not. -/
structure HashedFrom (txs : Set MsgTx) (pairs : Set (Hash × Hash)) (block : MsgBlock) : Prop where
  transactions : ∀ tx ∈ block.transactions, tx ∈ txs
  regular : ∀ p ∈ hashedPairs env (regularLeaves env block), p ∈ pairs
  sTransactions : isKeyBlock env block.header = true → ∀ tx ∈ block.sTransactions, tx ∈ txs
  stake : isKeyBlock env block.header = true →
    ∀ p ∈ hashedPairs env (block.sTransactions.map env.txHashFull), p ∈ pairs

/-- Every block with the header of a block that passes the checks is that block. -/
def Commits (txs : Set MsgTx) (pairs : Set (Hash × Hash)) (block : MsgBlock) : Prop :=
  ∀ block' adjustedTime, HashedFrom env txs pairs block' → block'.header = block.header →
    checkBlockSanity env block' adjustedTime false = .ok ⟨⟩ →
    block'.transactions = block.transactions ∧ block'.sTransactions = block.sTransactions

end Spec

variable {env : Env} {block : MsgBlock} {adjustedTime : ℤ}

/-! ## The array of `BuildMerkleTreeStore` -/

theorem two_pow_log2_of_and_sub_one {n : ℕ} (h0 : n ≠ 0) (h : n &&& (n - 1) = 0) :
    2 ^ n.log2 = n := by
  by_contra hne
  have hlt : 2 ^ n.log2 < n := lt_of_le_of_ne (Nat.log2_self_le h0) hne
  have hup : n < 2 ^ (n.log2 + 1) := Nat.lt_log2_self
  -- the highest bit of `n` is a bit of `n - 1` too
  have hbit : (n &&& (n - 1)).testBit n.log2 = true := by
    rw [Nat.testBit_and, Nat.testBit_of_two_pow_le_and_two_pow_add_one_gt hlt.le hup,
      Nat.testBit_of_two_pow_le_and_two_pow_add_one_gt (by omega) (by omega)]
    rfl
  simp [h] at hbit

/-- `nextPowerOfTwo` in closed form. -/
theorem nextPowerOfTwo_eq {n : ℕ} (h : n ≠ 0) : nextPowerOfTwo n = 2 ^ Nat.clog 2 n := by
  unfold nextPowerOfTwo
  split_ifs with hpow
  · have hn := two_pow_log2_of_and_sub_one h hpow
    rw [← hn, Nat.clog_pow 2 _ one_lt_two]
  · have hne : 2 ^ n.log2 ≠ n := by
      rintro heq
      rw [← heq] at hpow
      simp [Nat.and_two_pow_sub_one_eq_mod] at hpow
    have hlt : 2 ^ n.log2 < n := lt_of_le_of_ne (Nat.log2_self_le h) hne
    have hup : n ≤ 2 ^ (n.log2 + 1) := Nat.lt_log2_self.le
    have hclog : Nat.clog 2 n = n.log2 + 1 :=
      le_antisymm ((Nat.clog_le_iff_le_pow one_lt_two).2 hup)
        ((Nat.lt_clog_iff_pow_lt one_lt_two).2 hlt)
    rw [hclog]

/-- Missing leaves have missing parents. -/
theorem merkleParents_replicate (m : ℕ) :
    merkleParents env (replicate (2 * m) none) = replicate m none := by
  induction m with
  | zero => rfl
  | succ m ih =>
    rw [Nat.mul_succ, replicate_succ, replicate_succ, replicate_succ, merkleParents, ih]

/-- One row of the tree, above the leaves and the missing ones. -/
theorem merkleParents_append (leaves : List Hash) {missing : ℕ}
    (h : (leaves.length + missing) % 2 = 0) :
    merkleParents env (leaves.map some ++ replicate missing none) =
      (parents (hashMerkleBranches env) leaves).map some ++ replicate (missing / 2) none := by
  unfold parents
  fun_induction siblings leaves with
  | case1 =>
    obtain ⟨m, rfl⟩ : ∃ m, missing = 2 * m := ⟨missing / 2, by simp at h; omega⟩
    rw [Nat.mul_div_cancel_left m two_pos]
    exact merkleParents_replicate m
  | case2 a =>
    obtain ⟨m, rfl⟩ : ∃ m, missing = 2 * m + 1 := ⟨missing / 2, by simp at h; omega⟩
    have hhalf : (2 * m + 1) / 2 = m := by omega
    rw [hhalf, replicate_succ]
    exact congrArg _ (merkleParents_replicate m)
  | case3 a b leaves ih =>
    have hrest : (leaves.length + missing) % 2 = 0 := by
      simp only [length_cons] at h
      omega
    simpa [merkleParents] using ih hrest

/-- All rows: the first entry of each is a row of the abstract tree. -/
theorem iterate_merkleParents {height : ℕ} (leaves : List Hash) {missing : ℕ}
    (h : leaves.length + missing = 2 ^ height) : ∃ rest,
    (merkleParents env)^[height] (leaves.map some ++ replicate missing none) =
      ((parents (hashMerkleBranches env))^[height] leaves).map some ++ replicate rest none := by
  induction height generalizing leaves missing with
  | zero => exact ⟨missing, rfl⟩
  | succ height ih =>
    rw [pow_succ] at h
    have hlength : (parents (hashMerkleBranches env) leaves).length = _ := length_parents leaves
    have hhalf :
        (parents (hashMerkleBranches env) leaves).length + missing / 2 = 2 ^ height := by omega
    obtain ⟨rest, hrest⟩ := ih (parents (hashMerkleBranches env) leaves) hhalf
    refine ⟨rest, ?_⟩
    rw [Function.iterate_succ_apply, merkleParents_append leaves (by omega), hrest,
      Function.iterate_succ_apply]

/-- The root in the store is the root of the abstract tree. -/
theorem merkleTop_eq {leaves : List Hash} {root : Hash} (h : leaves ≠ [])
    (htop : merkleTop env (leaves.map some) = some root) :
    (parents (hashMerkleBranches env))^[treeHeight leaves] leaves = [root] := by
  have hwidth : nextPowerOfTwo leaves.length = 2 ^ treeHeight leaves :=
    nextPowerOfTwo_eq fun hlength => h (length_eq_zero_iff.1 hlength)
  have hle : leaves.length ≤ 2 ^ treeHeight leaves := Nat.le_pow_clog one_lt_two _
  obtain ⟨top, hroot⟩ :
    ∃ top, (parents (hashMerkleBranches env))^[treeHeight leaves] leaves = [top] :=
    exists_root h
  obtain ⟨rest, hrest⟩ := iterate_merkleParents leaves (Nat.add_sub_of_le hle)
  rw [merkleTop, length_map, hwidth, Nat.log2_two_pow, hrest, hroot] at htop
  simpa [hroot] using htop

/-! ## The regular tree -/

/-- The root of the header is that of the regular leaves: one for each transaction, and one before
them in a micro block. -/
theorem regularRoot_of_checkBlockSanity
    (h : checkBlockSanity env block adjustedTime false = .ok ⟨⟩) :
    (∃ first, regularLeaves env block = first ++ block.transactions.map env.txHashFull ∧
      first.length = 2 - coinbases env block.header) ∧
    (parents (hashMerkleBranches env))^[treeHeight (regularLeaves env block)]
    (regularLeaves env block) =
      [block.header.merkleRoot] := by
  obtain ⟨-, hne, -, -, -, -, -, hroots, -⟩ := checkBlockSanity_eq_ok.1 h
  unfold checkMerkleRoots merkleRoot at hroots
  simp only [bind_eq_ok, rejectIf_eq_ok, if_neg hne, not_not] at hroots
  unfold regularLeaves coinbases
  cases hkey : isKeyBlock env block.header with
  | true =>
    simp only [hkey, Bool.not_true, Bool.false_eq_true, if_false, pure_eq_ok] at hroots
    obtain ⟨root, hroot, -, rfl, -⟩ := hroots
    refine ⟨⟨[], rfl, rfl⟩, merkleTop_eq ?_ ?_⟩
    · simpa using hne
    · rw [if_pos rfl, map_map]
      exact hroot
  | false =>
    simp only [hkey, Bool.not_false, if_true, bind_eq_ok, pure_eq_ok] at hroots
    obtain ⟨root, ⟨leaf, hleaf, hroot⟩, -, rfl, -⟩ := hroots
    cases leaf with
    | none => cases hroot
    | some leaf =>
      simp only [hleaf, Bool.false_eq_true, if_false]
      refine ⟨⟨[leaf], rfl, rfl⟩, merkleTop_eq (cons_ne_nil _ _) ?_⟩
      rw [map_cons, map_map]
      exact hroot

/-! ## The stake tree of a key block -/

variable {stxs : List MsgTx}

/-- Stake transactions are of three types. -/
theorem length_eq_countTxType (h : ∀ tx ∈ stxs, txType env tx ≠ .regular) :
    stxs.length = countTxType env .sStx stxs + countTxType env .sSGen stxs +
      countTxType env .sSRtx stxs := by
  unfold countTxType
  induction stxs with
  | nil => rfl
  | cons tx stxs ih =>
    rw [forall_mem_cons] at h
    have hrest := ih h.2
    simp only [countP_cons, length_cons]
    cases htype : txType env tx with
    | regular => exact absurd htype h.1
    | sStx | sSGen | sSRtx => simp; omega

/-- The header of a sane key block commits to its stake tree. -/
theorem stakeRoot_of_checkBlockSanity (h : checkBlockSanity env block adjustedTime false = .ok ⟨⟩)
    (hkey : isKeyBlock env block.header = true) :
    block.sTransactions.length = block.header.freshStake + block.header.voters +
      block.header.revocations ∧
    (block.sTransactions ≠ [] → (parents (hashMerkleBranches env))^[treeHeight
      (block.sTransactions.map env.txHashFull)] (block.sTransactions.map env.txHashFull) =
        [block.header.stakeRoot]) := by
  obtain ⟨-, -, -, -, -, -, hstake, hroots, -⟩ := checkBlockSanity_eq_ok.1 h
  constructor
  · unfold checkStakeTreeIf checkStakeTree checkStakeTx at hstake
    simp only [hkey, if_true, bind_eq_ok, rejectIf_eq_ok, forM_eq_ok, exists_const,
      not_not] at hstake
    obtain ⟨htypes, hfresh, -, -, hvoters, hrevocations⟩ := hstake
    rw [← hfresh, ← hvoters, ← hrevocations]
    exact length_eq_countTxType fun tx htx => (htypes tx htx).choose_spec.2
  · intro hne
    unfold checkMerkleRoots at hroots
    simp only [bind_eq_ok, rejectIf_eq_ok, hkey, true_and, not_not] at hroots
    obtain ⟨-, -, -, -, root, hroot, rfl⟩ := hroots
    rw [merkleRoot, if_neg hne, if_neg Bool.false_ne_true, pure_eq_ok] at hroot
    refine merkleTop_eq (by simpa using hne) ?_
    rw [map_map]
    exact hroot

section Blocks

variable {txs : Set MsgTx} {pairs : Set (Hash × Hash)} (hfree : CollisionFree env txs pairs)
include hfree

/-- What the equality of two regular trees is derived from: after the first leaf, the leaves are
different hashes of transactions. -/
theorem regularLeaves_spec (hblock : HashedFrom env txs pairs block)
    (h : checkBlockSanity env block adjustedTime false = .ok ⟨⟩) :
    2 ≤ (regularLeaves env block).length ∧ (regularLeaves env block).tail.Nodup ∧
      ∀ x ∈ (regularLeaves env block).tail, ∀ p ∈ pairs, hashMerkleBranches env p.1 p.2 ≠ x := by
  obtain ⟨⟨first, hfirst, hlength⟩, -⟩ := regularRoot_of_checkBlockSanity h
  obtain ⟨-, -, -, -, -, -, -, -, hdistinct, -⟩ := checkBlockSanity_eq_ok.1 h
  have hcount := (saneBlock_of_checkBlockSanity h).length
  have hnodup : (block.transactions.map env.txHashFull).Nodup := by
    rw [map_append, nodup_append] at hdistinct
    exact hdistinct.1.of_map.map_on fun tx htx tx' htx' heq =>
      hfree.txHashFull (hblock.transactions tx htx) (hblock.transactions tx' htx') heq
  have htail : (regularLeaves env block).tail.Sublist (block.transactions.map env.txHashFull) := by
    rw [hfirst, tail_append]
    split_ifs with hnil
    · exact tail_sublist _
    · obtain ⟨leaf, rfl⟩ : ∃ leaf, first = [leaf] := by
        apply length_eq_one_iff.1
        have hpos : first ≠ [] := by simpa using hnil
        have := length_pos_iff.2 hpos
        unfold coinbases at hlength
        split_ifs at hlength <;> omega
      exact Sublist.refl _
  refine ⟨?_, hnodup.sublist htail, fun x hx p hp => ?_⟩
  · rw [hfirst, length_append, length_map]
    omega
  · obtain ⟨tx, htx, rfl⟩ := mem_map.1 (htail.subset hx)
    exact hfree.leaf tx (hblock.transactions tx htx) p hp

variable {block' : MsgBlock} {adjustedTime' : ℤ} (hblock : HashedFrom env txs pairs block)
  (hblock' : HashedFrom env txs pairs block') (hheader : block'.header = block.header)
  (h : checkBlockSanity env block adjustedTime false = .ok ⟨⟩)
  (h' : checkBlockSanity env block' adjustedTime' false = .ok ⟨⟩)
include hblock hblock' hheader h h'

/-- Equal headers have equal regular trees. -/
theorem transactions_eq_of_header_eq : block'.transactions = block.transactions := by
  obtain ⟨⟨first, hfirst, hlength⟩, hroot⟩ := regularRoot_of_checkBlockSanity h
  obtain ⟨⟨first', hfirst', hlength'⟩, hroot'⟩ := regularRoot_of_checkBlockSanity h'
  obtain ⟨htwo, hnodup, hleaf⟩ := regularLeaves_spec hfree hblock h
  obtain ⟨htwo', hnodup', hleaf'⟩ := regularLeaves_spec hfree hblock' h'
  have hleaves : regularLeaves env block' = regularLeaves env block := by
    refine eq_of_root_eq hfree.branches htwo' htwo hnodup' hnodup hblock'.regular hblock.regular
      hleaf' hleaf ?_
    rw [hroot, hroot', hheader]
  rw [hfirst, hfirst'] at hleaves
  have hhashes := (append_inj hleaves (by rw [hlength, hlength', hheader])).2
  exact eq_of_map_eq_map hfree.txHashFull hblock'.transactions hblock.transactions hhashes

/-- Equal headers of key blocks have equal stake trees. -/
theorem sTransactions_eq_of_header_eq (hkey : isKeyBlock env block.header = true) :
    block'.sTransactions = block.sTransactions := by
  have hkey' : isKeyBlock env block'.header = true := hheader ▸ hkey
  obtain ⟨hlength, hroot⟩ := stakeRoot_of_checkBlockSanity h hkey
  obtain ⟨hlength', hroot'⟩ := stakeRoot_of_checkBlockSanity h' hkey'
  rw [hheader, ← hlength] at hlength'
  by_cases hnil : block.sTransactions = []
  · rw [hnil] at hlength' ⊢
    exact length_eq_zero_iff.1 hlength'
  have hnil' : block'.sTransactions ≠ [] := by
    intro heq
    rw [heq] at hlength'
    exact hnil (length_eq_zero_iff.1 hlength'.symm)
  have hheight : treeHeight (block'.sTransactions.map env.txHashFull) =
      treeHeight (block.sTransactions.map env.txHashFull) := by
    rw [treeHeight, treeHeight, length_map, length_map, hlength']
  have hstake := hblock'.stake hkey'
  have hrow := hroot' hnil'
  rw [hashedPairs, hheight] at hstake
  rw [hheight, hheader, ← hroot hnil] at hrow
  have hhashes := eq_of_iterate_parents_eq hfree.branches
    (by rw [length_map, length_map, hlength']) hstake (hblock.stake hkey) hrow
  exact eq_of_map_eq_map hfree.txHashFull (hblock'.sTransactions hkey')
    (hblock.sTransactions hkey) hhashes

end Blocks

/-! ## Micro blocks -/

/-- There is always a root. -/
theorem exists_merkleRoot (txs : List MsgTx) : ∃ root, merkleRoot env txs false = .ok root := by
  unfold merkleRoot
  by_cases hnil : txs = []
  · exact ⟨_, if_pos hnil⟩
  · exact ⟨_, if_neg hnil⟩

/-- A micro block that passes the checks passes them without its stake transactions too. -/
theorem checkBlockSanity_without_stake (hmicro : isKeyBlock env block.header = false)
    (hsize : env.blockSize { block with sTransactions := [] } ≤ env.blockSize block)
    (h : checkBlockSanity env block adjustedTime false = .ok ⟨⟩) :
    checkBlockSanity env { block with sTransactions := [] } adjustedTime false = .ok ⟨⟩ := by
  rw [checkBlockSanity_eq_ok] at h ⊢
  obtain ⟨⟨hpow, -, htime⟩, hne, hpayload, hfits, hcoinbases, hregular, -, hroots, hdistinct, hops,
    hbits⟩ := h
  refine ⟨⟨hpow, rfl, htime⟩, hne, hsize.trans hpayload, ?_, hcoinbases, hregular, ?_, ?_, ?_,
    ?_, hbits⟩
  · -- sizes up to the payload limit fit in their field
    have hmax : MaxBlockPayload < 2^32 := by decide
    rw [u32_of_lt (hpayload.trans_lt hmax)] at hfits
    rw [u32_of_lt ((hsize.trans hpayload).trans_lt hmax)]
    exact hsize.trans hfits
  · rw [hmicro]
    rfl
  · unfold checkMerkleRoots at hroots ⊢
    simp only [bind_eq_ok, rejectIf_eq_ok, exists_const, hmicro, Bool.false_eq_true, false_and,
      not_false_eq_true, and_true] at hroots ⊢
    obtain ⟨root, hroot, hheader, -⟩ := hroots
    exact ⟨root, hroot, hheader, exists_merkleRoot []⟩
  · rw [append_nil]
    rw [map_append] at hdistinct
    exact hdistinct.of_append_left
  · rw [map_append, sum_append] at hops
    rw [append_nil]
    exact (Nat.le_add_right _ _).trans hops

/-- A key block with a ticket. -/
def ticketBlock : MsgBlock :=
  blockOf (sampleEnv sampleParams) { sampleHeader 2 1 2 1 1 with freshStake := 1 }
    [coinbaseTx 20 55 [payTo 9 0, payTo 2 0], coinbaseTx 21 0 [heightOut 2, payTo 2 45]]
    [plainTx 22 [spend 1 0 0 0 0 0]
      [⟨10, 0, [0xba]⟩, ⟨0, 0, [0x6a, 30] ++ replicate 30 0⟩, ⟨0, 0, [0xbd]⟩]]

/-- A micro block with any stake transactions. -/
def microBlock (stxs : List MsgTx) : MsgBlock :=
  { blockOf (sampleEnv sampleParams) (sampleHeader 3 2 103 2 2)
      [coinbaseTx 30 0 [heightOut 3, payTo 2 30]] [] with sTransactions := stxs }

/-- The leaf that the coinbase of the micro block gives. -/
def coinbaseLeaf : Hash := Hash.ofBytes ((heightOut 3).pkScript.drop 6)

/-- A tree with one inner node has no collision. -/
theorem collisionFree_singleton {txs : List MsgTx} {p : Hash × Hash}
    (htxs : ∀ tx ∈ txs, ∀ tx' ∈ txs, env.txHashFull tx = env.txHashFull tx' → tx = tx')
    (hleaf : ∀ tx ∈ txs, hashMerkleBranches env p.1 p.2 ≠ env.txHashFull tx) :
    CollisionFree env { tx | tx ∈ txs } {p} where
  txHashFull tx htx tx' htx' heq := htxs tx htx tx' htx' heq
  branches := Set.injOn_singleton _ _
  leaf tx htx p' hp := by
    rw [Set.mem_singleton_iff.1 hp]
    exact hleaf tx htx

end Hcashd.Blockchain
