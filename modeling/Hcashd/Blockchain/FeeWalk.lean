import Hcashd.Blockchain.JournalCount
import Hcashd.Blockchain.KeyLinks

/-!
# The fees since the last key block, and what is in memory

`checkTransactionsAndConnect` adds up the fees of the blocks between the parent and the last key
block by walking over the nodes in memory: a node that is not linked to its parent ends the walk.
`checkConnectBlockIn` is `checkConnectBlock` with that walk, over the nodes that the index holds
when the block comes and those that are loaded on the way.

The stake difficulty of a key block is calculated before its fees, and looks for the key block
before the parent with `getPrevKeyNodeFromNode`. Where that one is not in the index, the nodes down
to it are loaded and linked. So for a key block the walk is complete if the nodes in memory are
those of the last few blocks, whatever their number. A block that is being mined is not a key block
yet and nothing is loaded for it, but its fees are walked for as those of a key block: here memory
matters (`checkConnectBlockIn_eq`, `exists_checkConnectBlockIn_ne`).
-/

namespace Hcashd.Blockchain

open Lib Stake List Function

/-- The ancestors of a block in memory: those that `b.index` holds, and those whose node has a
parent. -/
structure IndexMemory where
  inIndex : Hash → Bool
  hasParent : Hash → Bool

namespace IndexMemory

variable (m : IndexMemory)

/-- `loadBlockNode` for the parent of a node. If the index holds the block before it, the new node
is linked to that one and not to its child. -/
def loadBlockNode (child prev : ChainBlock) (below : Chain) : IndexMemory :=
  if (below.head?.map fun b => m.inIndex b.node.hash).getD false then
    ⟨update m.inIndex prev.node.hash true, update m.hasParent prev.node.hash true⟩
  else
    ⟨update m.inIndex prev.node.hash true,
      update (update m.hasParent prev.node.hash false) child.node.hash true⟩

/-- `getPrevNodeFromNode`, what it loads. -/
def getPrevNodeFromNode (node prev : ChainBlock) (below : Chain) : IndexMemory :=
  if m.hasParent node.node.hash then m else m.loadBlockNode node prev below

/-- The loop of `getPrevKeyNodeFromNode`, what it loads. There is no key block before the genesis
block. -/
def prevKeyLoop : IndexMemory → ChainBlock → Chain → Except Err IndexMemory
  | _, _, [] => .error .panic
  | m, node, prev :: below =>
    let m := m.getPrevNodeFromNode node prev below
    if prev.node.isKeyBlock then pure m else prevKeyLoop m prev below

/-- `GetTotalFeesByHash` and `GetPrevHashByHash`, walking from a block to the last key block. -/
def extraFeesLoop (prevKeyBlock : Hash) : Chain → ℤ → Except Err ℤ
  | [], extraFees => pure extraFees
  | b :: chain, extraFees =>
    if b.node.hash = 0 then pure extraFees
    else if m.inIndex b.node.hash = false then .error (.rule .noSuchBlockHash)
    else if b.node.hash = prevKeyBlock then pure (int64 (extraFees + b.node.totalFees))
    else if m.hasParent b.node.hash then
      extraFeesLoop prevKeyBlock chain (int64 (extraFees + b.node.totalFees))
    else pure (int64 (extraFees + b.node.totalFees))

end IndexMemory

variable (env : Env)

/-- What `CheckBlockStakeSanity` loads: for a key block on a micro block, `thresholdState` asks for
the key block before the parent. -/
def loadPrevKeyNode (m : IndexMemory) (prev : ChainBlock) (below : Chain) (block : MsgBlock) :
    Except Err IndexMemory :=
  if isKeyBlock env block.header = false ∨ prev.node.isKeyBlock then pure m
  else if prev.node.hash = env.blockHash env.params.genesisBlock.header ∨
    prev.block.header.prevKeyBlock = 0 then pure m
  else if m.inIndex prev.block.header.prevKeyBlock then pure m
  else m.prevKeyLoop prev below

/-- The comparison of a block's coinbases with its allowance, for fees since the last key block. -/
def checkCoinbaseValueWith (ctx : TreeContext) (prevFees fees inputFees : ℤ) (txs : List MsgTx)
    (extraFees : ℤ) : Except Err PUnit := do
  let header := ctx.node.header
  let allowance :=
    coinbaseAllowance env header ctx.node.isKeyBlock fees prevFees extraFees inputFees
  let valueIn := ((txs.head?.bind fun tx => tx.txIn.head?).map TxIn.valueIn).getD 0
  rejectIf (valueIn ≠ int64 (allowance.expAtomOut - allowance.totalFees) ∧ 0 < ctx.node.height)
    (Err.rule .badCoinbaseAmountIn)
  rejectIf (allowance.expAtomOut < coinbaseAtomOut env header ctx.node.isKeyBlock txs)
    (Err.rule .badCoinbaseValue)

/-- The fees since the last key block: only a key block takes a share in them, unless it pays the
initial tokens. -/
def extraFeesIn (m : IndexMemory) (ctx : TreeContext) : Except Err ℤ :=
  if ctx.node.isKeyBlock && !paysLedger env ctx.node.header then
    m.extraFeesLoop ctx.node.header.prevKeyBlock ctx.chain 0
  else pure 0

/-- The checks of `checkConnectBlock` before any transaction: the tax is also asked of a block that
is being mined. -/
def checkTaxAndStake (isMining : Bool) (block : MsgBlock) (headers : List BlockHeader)
    (parentStakeNode : Stake.Node) : Except Err PUnit :=
  if isMining || isKeyBlock env block.header then
    match block.transactions with
    | [] => .error .panic
    | tx :: _ => do
      coinbasePaysTax env tx block.header.keyHeight block.header.voters
      if isKeyBlock env block.header then checkBlockStakeSanity env block headers parentStakeNode
      else pure ⟨⟩
  else pure ⟨⟩

/-- The part of `checkConnectBlock` for the block's stake transactions, with their fees. A block
that is being mined counts as a key block in `ctx`, but not where the votes are paid, which asks for
`keyBlock`. -/
def connectStakeTreeIn (keyBlock : Bool) (db : UtxoSet) (ctx : TreeContext) (parent : MsgBlock)
    (c : Connecting) : Except Err (Connecting × ℤ) := do
  let txs := ctx.block.sTransactions
  let c ← fetchTree env db c .currentStake txs ctx.block parent
  let s ← ctx.checkAndConnectTxs env c txs
  checkStakebaseValue env ctx.node.header keyBlock s.totalFees txs s.conn.view
  let stakeTreeFees ← getStakeTreeFees env ctx.node.keyHeight txs s.conn.view
  checkBlockScripts env ctx.node.height txs s.conn.view
  pure (s.conn, stakeTreeFees)

/-- The part of `checkConnectBlock` for the block's regular transactions. Indexing a second coinbase
that is not there is a run-time panic. -/
def connectRegularTreeIn (m : IndexMemory) (db : UtxoSet) (ctx : TreeContext) (prev : ChainBlock)
    (stakeTreeFees : ℤ) (c : Connecting) : Except Err Connecting := do
  let txs := ctx.block.transactions
  let c ← fetchTree env db c .currentRegular txs ctx.block prev.block
  let s ← ctx.checkAndConnectTxs env c txs
  rejectIf (prev.node.hash ≠ 0 ∧ m.inIndex prev.node.hash = false) (Err.rule .noSuchBlockHash)
  rejectIf (ctx.node.isKeyBlock ∧ paysLedger env ctx.node.header = false ∧ txs.length < 2) Err.panic
  let extraFees ← extraFeesIn env m ctx
  checkCoinbaseValueWith env ctx (totalFeesByHash prev.node) s.totalFees stakeTreeFees txs extraFees
  checkBlockScripts env ctx.node.height txs s.conn.view
  pure s.conn

/-- `checkConnectBlock`, for a block on top of `prev` and the chain below it, with some of their
nodes in memory. Without a list for the spent outputs, `stxos`, the regular transactions are not
taken back. -/
def checkConnectBlockIn (m : IndexMemory) (isMining stxos : Bool) (db : UtxoSet) (prev : ChainBlock)
    (below : Chain) (block : MsgBlock) : Except Err Connecting := do
  let chain := prev :: below
  let keyBlock := isKeyBlock env block.header
  let node := { newBlockNode env block with isKeyBlock := isMining || keyBlock }
  let parent := prev.block
  rejectIf (node.hash = env.blockHash env.params.genesisBlock.header) (Err.rule .missingTx)
  checkTaxAndStake env isMining block (Chain.headers chain) prev.stakeNode
  let m ← loadPrevKeyNode env m prev below block
  let c ← connectParentTree env db (newView block.header) block parent
  let (c, stakeTreeFees) ← connectStakeTreeIn env keyBlock db ⟨chain, block, node, false⟩ parent c
  let c ← connectRegularTreeIn env m db ⟨chain, block, node, true⟩ prev stakeTreeFees c
  let c ← if stxos then rollbackRegularTree env ⟨chain, block, node, true⟩ c else pure c
  checkBlockOne env block
  pure c

/-! ## Nodes of the last few blocks -/

namespace IndexMemory

/-- The nodes in memory are those of the last blocks of a chain, each linked to the next. -/
def Contiguous (m : IndexMemory) : Chain → Prop
  | [] => True
  | b :: chain => m.inIndex b.node.hash = true ∧
    if m.hasParent b.node.hash then Contiguous m chain
    else ∀ a ∈ chain, m.inIndex a.node.hash = false

instance decidableContiguous (m : IndexMemory) : (chain : Chain) → Decidable (m.Contiguous chain)
  | [] => isTrue trivial
  | b :: chain =>
    have := decidableContiguous m chain
    inferInstanceAs (Decidable (m.inIndex b.node.hash = true ∧ if m.hasParent b.node.hash then
      m.Contiguous chain else ∀ a ∈ chain, m.inIndex a.node.hash = false))

/-- The links in memory lead from the first block of a chain to the one with a hash, or to the
genesis block. -/
def Covers (m : IndexMemory) (hash : Hash) : Chain → Prop
  | [] => True
  | b :: chain => m.inIndex b.node.hash = true ∧
    (b.node.hash = hash ∨ chain = [] ∨ m.hasParent b.node.hash = true ∧ Covers m hash chain)

/-- All nodes of a chain in memory. -/
def whole : IndexMemory := ⟨fun _ => true, fun _ => true⟩

variable {m : IndexMemory} {hash : Hash} {chain : Chain}

/-- A whole index covers every chain. -/
theorem covers_whole : whole.Covers hash chain := by
  induction chain with
  | nil => trivial
  | cons b chain ih => exact ⟨rfl, .inr (.inr ⟨rfl, ih⟩)⟩

/-- Where the nodes are in memory, the walk finds the fees of the blocks. -/
theorem Covers.extraFeesLoop_eq {fees : ℤ} (h : m.Covers hash chain) :
    m.extraFeesLoop hash chain fees = .ok (Blockchain.extraFeesLoop hash chain fees) := by
  induction chain generalizing fees with
  | nil => rfl
  | cons b chain ih =>
    obtain ⟨hindex, hlink⟩ := h
    rw [extraFeesLoop, Blockchain.extraFeesLoop, hindex]
    by_cases hzero : b.node.hash = 0
    · rw [if_pos hzero, if_pos hzero]
      rfl
    · rw [if_neg hzero, if_neg hzero]
      by_cases hhash : b.node.hash = hash
      · simp [hhash, pure, Except.pure]
      · rcases hlink.resolve_left hhash with rfl | ⟨hparent, hrest⟩
        · simp [hhash, extraFeesLoop, Blockchain.extraFeesLoop, pure, Except.pure]
        · simp [hhash, hparent, ih hrest]

/-- A node that is covered is in memory. -/
theorem Covers.inIndex (h : m.Covers hash chain) (hmem : ∃ b ∈ chain, b.node.hash = hash) :
    m.inIndex hash = true := by
  induction chain with
  | nil => simp at hmem
  | cons b chain ih =>
    obtain ⟨hindex, hlink⟩ := h
    rcases hlink with rfl | hnil | ⟨-, hrest⟩
    · exact hindex
    · subst hnil
      obtain rfl : b.node.hash = hash := by simpa using hmem
      exact hindex
    · by_cases hhash : b.node.hash = hash
      · exact hhash ▸ hindex
      · exact ih hrest (by simpa [exists_mem_cons_iff, hhash] using hmem)

theorem Contiguous.inIndex_head {b : ChainBlock} (h : m.Contiguous (b :: chain)) :
    m.inIndex b.node.hash = true := h.1

/-- An index without gaps covers the way down to each of its nodes. -/
theorem Contiguous.covers (h : m.Contiguous chain)
    (hmem : ∃ b ∈ chain, b.node.hash = hash) (hindex : m.inIndex hash = true) :
    m.Covers hash chain := by
  induction chain with
  | nil => simp at hmem
  | cons b chain ih =>
    obtain ⟨hb, hrest⟩ := h
    refine ⟨hb, ?_⟩
    by_cases hhash : b.node.hash = hash
    · exact .inl hhash
    · obtain ⟨a, ha, rfl⟩ : ∃ a ∈ chain, a.node.hash = hash := by
        simpa [exists_mem_cons_iff, hhash] using hmem
      by_cases hparent : m.hasParent b.node.hash = true
      · rw [if_pos hparent] at hrest
        exact .inr (.inr ⟨hparent, ih hrest ⟨a, ha, rfl⟩⟩)
      · rw [if_neg hparent] at hrest
        exact absurd hindex (by rw [hrest a ha]; decide)

variable {below : Chain}

/-- The loop touches the nodes of its way only. -/
theorem prevKeyLoop_of_notMem {m m' : IndexMemory} {node : ChainBlock}
    (hrun : prevKeyLoop m node below = .ok m') (hnode : hash ≠ node.node.hash)
    (hbelow : hash ∉ below.map fun b => b.node.hash) :
    m'.inIndex hash = m.inIndex hash ∧ m'.hasParent hash = m.hasParent hash := by
  induction below generalizing m node with
  | nil => simp [prevKeyLoop] at hrun
  | cons prev below ih =>
    rw [map_cons, mem_cons, not_or] at hbelow
    have hstep : (m.getPrevNodeFromNode node prev below).inIndex hash = m.inIndex hash ∧
        (m.getPrevNodeFromNode node prev below).hasParent hash = m.hasParent hash := by
      unfold IndexMemory.getPrevNodeFromNode IndexMemory.loadBlockNode
      split_ifs <;> simp [update_of_ne, hnode, hbelow.1]
    rw [prevKeyLoop] at hrun
    split_ifs at hrun with hkey
    · rw [pure_eq_ok] at hrun
      exact hrun ▸ hstep
    · have hrest := ih hrun hbelow.1 hbelow.2
      exact ⟨hrest.1.trans hstep.1, hrest.2.trans hstep.2⟩

/-- Loading one node keeps the index without gaps. -/
theorem Contiguous.getPrevNodeFromNode {node prev : ChainBlock}
    (h : m.Contiguous (node :: prev :: below))
    (hnodup : ((node :: prev :: below).map fun b => b.node.hash).Nodup) :
    let m' := m.getPrevNodeFromNode node prev below
    m'.Contiguous (prev :: below) ∧ m'.inIndex node.node.hash = true ∧
    m'.hasParent node.node.hash = true := by
  obtain ⟨hnode, hrest⟩ := h
  simp only [map_cons, nodup_cons, mem_cons, not_or] at hnodup
  obtain ⟨⟨hne, -⟩, hprev, -⟩ := hnodup
  unfold IndexMemory.getPrevNodeFromNode
  by_cases hparent : m.hasParent node.node.hash = true
  · rw [if_pos hparent] at hrest ⊢
    exact ⟨hrest, hnode, hparent⟩
  · rw [if_neg hparent] at hrest ⊢
    have hbelow : ∀ a ∈ below, m.inIndex a.node.hash = false :=
      fun a ha => hrest a (mem_cons_of_mem _ ha)
    have hhead : ((below.head?.map fun b => m.inIndex b.node.hash).getD false) = false := by
      cases below with
      | nil => rfl
      | cons a below => exact hbelow a mem_cons_self
    rw [loadBlockNode, hhead, if_neg Bool.false_ne_true]
    have hlast : update (update m.hasParent prev.node.hash false) node.node.hash true
        prev.node.hash ≠ true := by
      rw [update_of_ne (Ne.symm hne), update_self]
      exact Bool.false_ne_true
    refine ⟨⟨update_self .., Eq.mpr (if_neg hlast) fun a ha => ?_⟩, ?_, update_self ..⟩
    · have hane : a.node.hash ≠ prev.node.hash := fun heq => hprev (heq ▸ mem_map_of_mem ha)
      exact (update_of_ne hane _ _).trans (hbelow a ha)
    · exact (update_of_ne hne _ _).trans hnode

/-- The loop loads the nodes down to the last key block. -/
theorem Contiguous.prevKeyLoop {m : IndexMemory} {node : ChainBlock} {key : ChainBlock}
    (h : m.Contiguous (node :: below)) (hnodup : ((node :: below).map fun b => b.node.hash).Nodup)
    (hkey : below.find? (fun b => b.node.isKeyBlock) = some key) :
    ∃ m', IndexMemory.prevKeyLoop m node below = .ok m' ∧
      m'.Covers key.node.hash (node :: below) := by
  induction below generalizing m node with
  | nil => simp at hkey
  | cons prev below ih =>
    obtain ⟨hcont, hindex, hparent⟩ := h.getPrevNodeFromNode hnodup
    rw [IndexMemory.prevKeyLoop]
    by_cases hprev : prev.node.isKeyBlock = true
    · obtain rfl : prev = key := by simpa [hprev] using hkey
      exact ⟨_, if_pos hprev, hindex, .inr (.inr ⟨hparent, hcont.inIndex_head, .inl rfl⟩)⟩
    · replace hkey :
        below.find? (fun b => b.node.isKeyBlock) = some key := by simpa [hprev] using hkey
      obtain ⟨m', hrun, hcovers⟩ := ih hcont (nodup_cons.1 hnodup).2 hkey
      have hne := (nodup_cons.1 hnodup).1
      rw [map_cons, mem_cons, not_or] at hne
      have hkeep := prevKeyLoop_of_notMem hrun hne.1 hne.2
      exact ⟨m', (if_neg hprev).trans hrun, hkeep.1.trans hindex,
        .inr (.inr ⟨hkeep.2.trans hparent, hcovers⟩)⟩

end IndexMemory

section Verdict

variable {env}

theorem exists_key_of_nearestKeyHash {chain : Chain}
    (hnodes : ∀ b ∈ chain, b.node = newBlockNode env b.block)
    (hne : nearestKeyHash env (Chain.headers chain) ≠ 0) :
    ∃ key, chain.find? (fun b => b.node.isKeyBlock) = some key ∧
      key.node.hash = nearestKeyHash env (Chain.headers chain) := by
  induction chain with
  | nil => exact absurd rfl hne
  | cons b chain ih =>
    obtain ⟨hb, hchain⟩ := forall_mem_cons.1 hnodes
    have hkind : b.node.isKeyBlock = isKeyBlock env b.block.header := by rw [hb]; rfl
    cases hkey : isKeyBlock env b.block.header with
    | true =>
      refine ⟨b, by simp [hkind, hkey], ?_⟩
      rw [Chain.headers, map_cons, nearestKeyHash, find?_cons_of_pos hkey, hb]
      rfl
    | false =>
      rw [Chain.headers, map_cons, nearestKeyHash_cons_of_micro hkey] at hne ⊢
      obtain ⟨key, hfind, hhash⟩ := ih hchain hne
      exact ⟨key, by simp [hkind, hkey, hfind], hhash⟩

variable {m : IndexMemory} {db : UtxoSet} {prev : ChainBlock} {below : Chain} {block : MsgBlock}

/-- A micro block names the last key block. -/
theorem NamesKeys.prevKeyBlock_of_micro (hchain : NamesKeys env (prev :: below))
    (hmicro : prev.node.isKeyBlock = false) :
    prev.block.header.prevKeyBlock = nearestKeyHash env (Chain.headers (prev :: below)) := by
  have hkind : isKeyBlock env prev.block.header = false := by
    rw [← hmicro, hchain.node prev mem_cons_self]
    rfl
  exact hchain.linked.1.trans (nearestKeyHash_cons_of_micro hkind).symm

theorem extraFeesIn_checkCoinbaseValueWith {ctx : TreeContext} {prevFees fees inputFees : ℤ}
    {txs : List MsgTx} :
    (extraFeesIn env .whole ctx >>= checkCoinbaseValueWith env ctx prevFees fees inputFees txs) =
      checkCoinbaseValue env ctx prevFees fees inputFees txs := by
  unfold extraFeesIn
  split_ifs with hshare
  · rw [IndexMemory.covers_whole.extraFeesLoop_eq]
    rfl
  · rw [pure_bind, checkCoinbaseValueWith, checkCoinbaseValue]
    unfold coinbaseAllowance
    split_ifs with hledger hkey
    · rfl
    · exact absurd (by simp [hkey, hledger]) hshare
    · rfl

/-- What is in memory when the fees are walked for, where it was contiguous before. -/
theorem IndexMemory.Contiguous.loadPrevKeyNode (hchain : NamesKeys env (prev :: below))
    (hprev : prevKeyHashExists env block.header prev.block.header = .ok ⟨⟩)
    (hne : block.header.prevKeyBlock ≠ 0) (hkey : isKeyBlock env block.header = true)
    (hm : m.Contiguous (prev :: below)) :
    ∃ m', Blockchain.loadPrevKeyNode env m prev below block = .ok m' ∧
      m'.Covers block.header.prevKeyBlock (prev :: below) := by
  have hnamed : block.header.prevKeyBlock = nearestKeyHash env (Chain.headers (prev :: below)) :=
    (prevKeyHashExists_eq_ok hchain.linked).1 hprev
  rw [hnamed] at hne ⊢
  obtain ⟨key, hfind, hhash⟩ := exists_key_of_nearestKeyHash hchain.node hne
  have hmem : ∃ b ∈ prev :: below, b.node.hash = key.node.hash :=
    ⟨key, mem_of_find?_eq_some hfind, rfl⟩
  rw [← hhash] at hne ⊢
  unfold Blockchain.loadPrevKeyNode
  by_cases hkind : isKeyBlock env block.header = false ∨ prev.node.isKeyBlock = true
  · -- nothing is loaded: the parent is the key block
    refine ⟨m, if_pos hkind, hm.covers hmem ?_⟩
    have hprevKey := hkind.resolve_left (by rw [hkey]; decide)
    obtain rfl : prev = key := by simpa [hprevKey] using hfind
    exact hm.inIndex_head
  rw [if_neg hkind]
  have hmicro : prev.node.isKeyBlock = false := by simpa using fun h => hkind (.inr h)
  have hfind' : below.find? (fun b => b.node.isKeyBlock) = some key := by simpa [hmicro] using hfind
  have hnames : prev.block.header.prevKeyBlock = key.node.hash := by
    rw [hhash]
    exact hchain.prevKeyBlock_of_micro hmicro
  have hgenesis : prev.node.hash ≠ env.blockHash env.params.genesisBlock.header :=
    hchain.ne_genesis (mem_of_find?_eq_some hfind')
  rw [if_neg (by rw [hnames]; exact not_or.2 ⟨hgenesis, hne⟩), hnames]
  by_cases hindex : m.inIndex key.node.hash = true
  · exact ⟨m, if_pos hindex, hm.covers hmem hindex⟩
  · obtain ⟨m', hrun, hcovers⟩ := hm.prevKeyLoop hchain.nodup hfind'
    exact ⟨m', (if_neg hindex).trans hrun, hcovers⟩

/-- Nothing is loaded where the links already lead to the key block. -/
theorem IndexMemory.Covers.loadPrevKeyNode (hchain : NamesKeys env (prev :: below))
    (hprev : prevKeyHashExists env block.header prev.block.header = .ok ⟨⟩)
    (hm : m.Covers block.header.prevKeyBlock (prev :: below)) :
    Blockchain.loadPrevKeyNode env m prev below block = .ok m := by
  have hnamed : block.header.prevKeyBlock = nearestKeyHash env (Chain.headers (prev :: below)) :=
    (prevKeyHashExists_eq_ok hchain.linked).1 hprev
  unfold Blockchain.loadPrevKeyNode
  split_ifs with hkind hfirst hindex
  · rfl
  · rfl
  · rfl
  · rw [not_or] at hkind hfirst
    have hnames := hchain.prevKeyBlock_of_micro (by simpa using hkind.2)
    rw [hnames] at hindex hfirst
    obtain ⟨key, hfind, hhash⟩ := exists_key_of_nearestKeyHash hchain.node hfirst.2
    exact absurd (hm.inIndex ⟨key, mem_of_find?_eq_some hfind, hhash.trans hnamed.symm⟩)
      (hnamed ▸ hindex)

/-- A whole index loads nothing. -/
theorem loadPrevKeyNode_whole : loadPrevKeyNode env .whole prev below block = .ok .whole := by
  unfold loadPrevKeyNode
  split_ifs with hkind hfirst hindex
  · rfl
  · rfl
  · rfl
  · exact absurd rfl hindex

/-- The verdict does not depend on how the nodes came into memory. -/
theorem checkConnectBlockIn_of_covers {isMining stxos : Bool} {m' : IndexMemory}
    (hload : loadPrevKeyNode env m prev below block = .ok m')
    (hparent : m'.inIndex prev.node.hash = true)
    (hcovers : isMining = true ∨ isKeyBlock env block.header = true →
      m'.Covers block.header.prevKeyBlock (prev :: below)) :
    checkConnectBlockIn env m isMining stxos db prev below block =
      checkConnectBlockIn env .whole isMining stxos db prev below block := by
  have hfees : ∀ ctx : TreeContext, ctx.chain = prev :: below →
      ctx.node.isKeyBlock = (isMining || isKeyBlock env block.header) →
      ctx.node.header = block.header →
      extraFeesIn env m' ctx = extraFeesIn env .whole ctx := by
    intro ctx hchain hkind hheader
    unfold extraFeesIn
    split_ifs with hshare
    · have hasked : isMining = true ∨ isKeyBlock env block.header = true := by
        rw [← Bool.or_eq_true, ← hkind]
        exact (Bool.and_eq_true_iff.1 hshare).1
      rw [hchain, hheader, (hcovers hasked).extraFeesLoop_eq,
        IndexMemory.covers_whole.extraFeesLoop_eq]
    · rfl
  unfold checkConnectBlockIn
  refine bind_congr fun _ => bind_congr fun _ => ?_
  rw [hload, loadPrevKeyNode_whole, ok_bind, ok_bind]
  refine bind_congr fun c => bind_congr fun tree => ?_
  dsimp only [connectRegularTreeIn]
  rw [hfees _ rfl rfl rfl]
  simp [hparent, IndexMemory.whole]

/-- With all nodes in memory the walk adds up the fees of all blocks down to the key block. -/
theorem checkConnectBlockIn_whole
    (hcoinbases : isKeyBlock env block.header = true → 2 ≤ block.transactions.length) :
    checkConnectBlockIn env .whole false true db prev below block =
      checkConnectBlock env db prev below block := by
  have hnode : { newBlockNode env block with isKeyBlock := false || isKeyBlock env block.header } =
      newBlockNode env block := by simp [newBlockNode]
  have hstart : ∀ headers, checkTaxAndStake env false block headers prev.stakeNode =
      checkKeyBlock env block headers prev.stakeNode := by
    intro headers
    unfold checkTaxAndStake checkKeyBlock
    simp only [Bool.false_or]
    split_ifs with hkey
    · cases block.transactions <;> rfl
    · rfl
  have hregular : ∀ stakeTreeFees c, connectRegularTreeIn env .whole db
      ⟨prev :: below, block, newBlockNode env block, true⟩ prev stakeTreeFees c =
        connectRegularTree env db ⟨prev :: below, block, newBlockNode env block, true⟩ prev.block
          (totalFeesByHash prev.node) stakeTreeFees c := by
    intro stakeTreeFees c
    have hpanic : rejectIf ((newBlockNode env block).isKeyBlock = true ∧
        paysLedger env (newBlockNode env block).header = false ∧ block.transactions.length < 2)
        Err.panic = .ok ⟨⟩ := rejectIf_eq_ok.2 fun h => not_lt.2 (hcoinbases h.1) h.2.2
    have hindex : rejectIf (prev.node.hash ≠ 0 ∧ IndexMemory.whole.inIndex prev.node.hash = false)
        (Err.rule .noSuchBlockHash) = .ok ⟨⟩ :=
          rejectIf_eq_ok.2 fun h => Bool.false_ne_true h.2.symm
    unfold connectRegularTreeIn connectRegularTree
    refine bind_congr fun c' => bind_congr fun s => ?_
    rw [hpanic, hindex, ← extraFeesIn_checkCoinbaseValueWith, bind_assoc]
    rfl
  simp only [checkConnectBlockIn, checkConnectBlock, hnode, hstart, hregular, loadPrevKeyNode_whole,
    ok_bind, if_true]
  rfl

end Verdict

/-! ## A restart with a key block out of reach -/

/-- Micro blocks on the one that takes its share in the fees of the second key block. -/
def quietMicroBlock (i : ℕ) : MsgBlock := blockOf (sampleEnv sampleParams)
  (sampleHeader (4 + i) 2 (104 + i) (103 + i) 2)
    [coinbaseTx (50 + i) 0 [heightOut (4 + i), payTo 2 0]] []

/-- Two key blocks, of which the second leaves a fee, and twelve micro blocks. -/
def microRun : List (ℤ × MsgBlock) :=
  [(10, sampleBlockOne), (10, feeBlock), (10, feeMicroBlock)] ++
    (range 11).map fun i => (10, quietMicroBlock i)

/-- The nodes after a restart: the best one, and those that the median time was taken over. -/
def restarted (chain : Chain) : IndexMemory where
  inIndex hash := (chain.take 12).any fun b => b.node.hash = hash
  hasParent hash := (chain.take 11).any fun b => b.node.hash = hash

/-- A block on the micro blocks that takes its share in the fees since the second key block. -/
def shareBlock (nonce : ℕ) : MsgBlock :=
  blockOf (sampleEnv sampleParams) (sampleHeader 15 2 nonce 114 2)
  [coinbaseTx 40 55 [payTo 9 10, payTo 2 0], coinbaseTx 41 0 [heightOut 15, payTo 2 55]] []

end Hcashd.Blockchain
