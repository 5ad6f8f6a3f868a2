import Hcashd.Blockchain.Chain
import Hcashd.Lib.Avoids

/-!
# The statistics of the main chain

The best state that `chain.go` keeps in memory and, in part, in the database. `connectBlock` adds
the transactions and the subsidy that a block brings, `disconnectBlock` subtracts them again. The
rest of a snapshot is made anew each time, and not always from the same data: the number of
transactions in the best block is that of the block that was disconnected, and the size of a block
is taken from its header or from its bytes.
-/

namespace Hcashd.Blockchain.Statistics

open Lib

/-- `BestState`: the snapshot of the tip that the other packages read. -/
structure BestState where
  hash : Hash
  height : ℕ
  keyHeight : ℕ
  bits : ℕ
  blockSize : ℕ
  numTxns : ℕ
  totalTxns : ℕ
  medianTime : ℤ
  totalSubsidy : ℤ
  deriving DecidableEq

/-- `bestChainState`. Its work sum is part of the index of block nodes. -/
structure BestChainState where
  hash : Hash
  height : ℕ
  totalTxns : ℕ
  totalSubsidy : ℤ
  deriving DecidableEq

/-- The main chain with its statistics, in memory and in the database. -/
structure BestChain where
  chain : ChainState
  snapshot : BestState
  stored : BestChainState

variable (env : Env)

/-- `newBestState`: the snapshot of a node with the figures given. -/
def newBestState (node : BlockNode) (blockSize numTxns totalTxns : ℕ)
    (medianTime totalSubsidy : ℤ) : BestState :=
  ⟨node.hash, node.height, node.keyHeight, node.header.bits, blockSize, numTxns, totalTxns,
    medianTime, totalSubsidy⟩

/-- What `dbPutBestState` stores of a snapshot. -/
def dbPutBestState (snapshot : BestState) : BestChainState :=
  ⟨snapshot.hash, u32 snapshot.height, snapshot.totalTxns, snapshot.totalSubsidy⟩

/-- The transactions that a block adds: its stake tree, and its parent's regular one if approved. -/
def countNumberOfTransactions (block parent : MsgBlock) : ℕ :=
  (if blockValid block.header.voteBits then parent.transactions.length else 0) +
    block.sTransactions.length

/-- The value that the first input of a transaction declares. -/
def firstValueIn (tx : MsgTx) : Except Err ℤ := do
  let txIn ← index Err.panic tx.txIn 0
  pure txIn.valueIn

/-- The subsidy of the parent's coinbase. -/
def parentSubsidy (block parent : MsgBlock) : Except Err ℤ :=
  if blockValid block.header.voteBits then index Err.panic parent.transactions 0 >>= firstValueIn
  else pure 0

/-- `CalculateAddedSubsidy`: what the coinbases of the parent and the votes bring in. -/
def calculateAddedSubsidy (block parent : MsgBlock) : Except Err ℤ := do
  let subsidy ← parentSubsidy block parent
  (block.sTransactions.filter (isSSGen env)).foldlM (fun subsidy stx => do
    let valueIn ← firstValueIn stx
    pure (int64 (subsidy + valueIn))) subsidy

/-- `connectBlock`, with what it needs of the checks before it. -/
def connectBlock (st : BestChain) (block : MsgBlock) (c : Connecting) : Except Err BestChain := do
  rejectIf (block.header.prevBlock ≠ st.chain.tip.node.hash) Err.assertion
  let chain ← Blockchain.connectBlock env st.chain block c
  let numTxns := countNumberOfTransactions block st.chain.tip.block
  let subsidy ← calculateAddedSubsidy env block st.chain.tip.block
  let state := newBestState chain.tip.node block.header.size numTxns
    ((st.snapshot.totalTxns + numTxns) % 2^64) (calcPastMedianTime (Chain.headers chain.chain))
    (int64 (st.snapshot.totalSubsidy + subsidy))
  pure ⟨chain, state, dbPutBestState state⟩

/-- `disconnectBlock`, as far as the best state is concerned. -/
def disconnectBlock (st : BestChain) (block : MsgBlock) (view : UtxoViewpoint) :
    Except Err BestChain := do
  rejectIf (env.blockHash block.header ≠ st.chain.tip.node.hash) Err.assertion
  match st.chain.below with
  | [] => .error .panic
  | prev :: below => do
    let numTxns := countNumberOfTransactions block prev.block
    let subsidy ← calculateAddedSubsidy env block prev.block
    let state := newBestState prev.node prev.block.header.size numTxns
      ((st.snapshot.totalTxns + (2^64 - numTxns % 2^64)) % 2^64)
      (calcPastMedianTime (Chain.headers (prev :: below)))
        (int64 (st.snapshot.totalSubsidy - subsidy))
    pure ⟨⟨prev, below, dbPutUtxoView st.chain.utxos view⟩, state, dbPutBestState state⟩

/-- `createChainState`: the size of the genesis block is that of its bytes. -/
def createChainState : BestChain :=
  let genesis := env.params.genesisBlock
  let numTxns := genesis.transactions.length % 2^64
  let state := newBestState (newBlockNode env genesis) (env.blockSize genesis) numTxns numTxns
    genesis.header.timestamp 0
  ⟨genesisState env, state, dbPutBestState state⟩

/-- `initChainState`, when the node starts again. Stake transactions are not counted. -/
def initChainState (st : BestChain) : BestChain :=
  ⟨st.chain, newBestState st.chain.tip.node (env.blockSize st.chain.tip.block)
    st.chain.tip.block.transactions.length st.stored.totalTxns
    (calcPastMedianTime (Chain.headers st.chain.chain)) st.stored.totalSubsidy, st.stored⟩

/-- The main chains of a node at any time. -/
inductive Reached : BestChain → Prop
  | create : Reached (createChainState env)
  | restart {st : BestChain} : Reached st → Reached (initChainState env st)
  | connect {st st' : BestChain} {block : MsgBlock} {c : Connecting} :
    Reached st → connectBlock env st block c = .ok st' → Reached st'
  | disconnect {st st' : BestChain} {block : MsgBlock} {view : UtxoViewpoint} :
    Reached st → disconnectBlock env st block view = .ok st' → Reached st'

/-- The statistics describe the tip, up to the size and the transactions of its block. -/
structure Describes (st : BestChain) : Prop where
  snapshot : st.snapshot = newBestState st.chain.tip.node st.snapshot.blockSize st.snapshot.numTxns
    st.snapshot.totalTxns (calcPastMedianTime (Chain.headers st.chain.chain))
      st.snapshot.totalSubsidy
  stored : st.stored = dbPutBestState st.snapshot
  txns : st.snapshot.totalTxns < 2^64
  subsidy : int64 st.snapshot.totalSubsidy = st.snapshot.totalSubsidy

variable {env} {st st' : BestChain} {block : MsgBlock} {c : Connecting} {view : UtxoViewpoint}

theorem int64_int64 (x : ℤ) : int64 (int64 x) = int64 x := Int.bmod_bmod

/-- The first snapshot describes the genesis block. -/
theorem describes_createChainState : Describes (createChainState env) where
  snapshot := by
    have hmedian : calcPastMedianTime (Chain.headers (genesisState env).chain) =
        env.params.genesisBlock.header.timestamp := by
      simp [calcPastMedianTime, Chain.headers, ChainState.chain, genesisState]
    exact congrArg (newBestState _ _ _ _ · _) hmedian.symm
  stored := rfl
  txns := Nat.mod_lt _ (by norm_num)
  subsidy := (by decide : int64 0 = 0)

/-- A restart reads back a snapshot that describes the chain. -/
theorem Describes.initChainState (h : Describes st) : Describes (initChainState env st) where
  snapshot := rfl
  stored := by
    rw [Statistics.initChainState, h.stored, h.snapshot]
    rfl
  txns := by
    rw [Statistics.initChainState, h.stored]
    exact h.txns
  subsidy := by
    rw [Statistics.initChainState, h.stored]
    exact h.subsidy

/-- `connectBlock` keeps the snapshot in step. -/
theorem Describes.connectBlock (h : connectBlock env st block c = .ok st') : Describes st' := by
  simp only [Statistics.connectBlock, Blockchain.connectBlock, bind_eq_ok, rejectIf_eq_ok,
    pure_eq_ok, exists_const] at h
  obtain ⟨-, chain, ⟨-, stakeNode, -, rfl⟩, subsidy, -, rfl⟩ := h
  exact ⟨rfl, rfl, Nat.mod_lt _ (by norm_num), int64_int64 _⟩

/-- `disconnectBlock` keeps the snapshot in step. -/
theorem Describes.disconnectBlock (h : disconnectBlock env st block view = .ok st') :
    Describes st' := by
  simp only [Statistics.disconnectBlock, bind_eq_ok, rejectIf_eq_ok, exists_const] at h
  obtain ⟨-, h⟩ := h
  cases hbelow : st.chain.below with
  | nil => simp [hbelow] at h
  | cons prev below =>
    simp only [hbelow, bind_eq_ok, pure_eq_ok] at h
    obtain ⟨subsidy, -, rfl⟩ := h
    exact ⟨rfl, rfl, Nat.mod_lt _ (by norm_num), int64_int64 _⟩

/-- Every state that is reached is described by its snapshot. -/
theorem Reached.describes (h : Reached env st) : Describes st := by
  induction h with
  | create => exact describes_createChainState
  | restart _ ih => exact ih.initChainState
  | connect _ hconnect _ => exact .connectBlock hconnect
  | disconnect _ hdisconnect _ => exact .disconnectBlock hdisconnect

/-- A block that was connected can be disconnected. The statistics are then as before exactly if the
snapshot counted as many transactions as the block added, and knew the size that the tip's header
has. -/
theorem statistics_restored_iff (h : Reached env st)
    (hconnect : connectBlock env st block c = .ok st')
    (view : UtxoViewpoint) : ∃ st'', disconnectBlock env st' block view = .ok st'' ∧
      (st''.snapshot = st.snapshot ∧ st''.stored = st.stored ↔
        st.snapshot.numTxns = countNumberOfTransactions block st.chain.tip.block ∧
          st.snapshot.blockSize = st.chain.tip.block.header.size) := by
  have hdescribes := h.describes
  simp only [connectBlock, Blockchain.connectBlock, bind_eq_ok, rejectIf_eq_ok, pure_eq_ok,
    exists_const] at hconnect
  obtain ⟨-, chain, ⟨-, stakeNode, -, rfl⟩, subsidy, hsubsidy, rfl⟩ := hconnect
  dsimp only [disconnectBlock, ChainState.chain]
  have hhash : ¬ env.blockHash block.header ≠ (newBlockNode env block).hash := not_not.2 rfl
  rw [rejectIf_bind hhash, hsubsidy, ok_bind]
  refine ⟨_, rfl, ?_⟩
  -- the totals are restored in any case
  have htxns : ∀ num, ((st.snapshot.totalTxns + num) % 2^64 + (2^64 - num % 2^64)) % 2^64 =
      st.snapshot.totalTxns := by
    have hlt := hdescribes.txns
    omega
  have hamount :
      int64 (int64 (st.snapshot.totalSubsidy + subsidy) - subsidy) = st.snapshot.totalSubsidy := by
    refine Eq.trans ?_ hdescribes.subsidy
    unfold int64
    rw [Int.bmod_sub_bmod, add_sub_cancel_right]
  have hsame := hdescribes.snapshot
  simp only [newBestState] at hsame
  simp only [newBestState, htxns, hamount]
  rw [hdescribes.stored]
  constructor
  · rintro ⟨heq, -⟩
    rw [hsame] at heq
    simp only [BestState.mk.injEq] at heq
    exact ⟨heq.2.2.2.2.2.1.symm, heq.2.2.2.2.1.symm⟩
  · rintro ⟨hnum, hsize⟩
    rw [← hnum, ← hsize]
    exact ⟨hsame.symm, congrArg dbPutBestState hsame.symm⟩

/-! ## Blocks with transactions -/

/-- A later key block, with two coinbases, of which the first pays the tax, and other
transactions. -/
def laterBlock (height : ℕ) (tax : ℤ) (txs : List MsgTx) : MsgBlock :=
  blockOf (sampleEnv sampleParams)
    (sampleHeader height (height - 1) height (height - 1) (height - 1))
    ([coinbaseTx (height * 10) 55 [payTo 9 tax, payTo 2 0],
      coinbaseTx (height * 10 + 1) 0 [heightOut height, payTo 2 45]] ++ txs) []

/-- The third block spends the output of the first one. -/
def spendingBlock : MsgBlock := laterBlock 3 10 [plainTx 32 [spend 10 0 0 1000 1 0] [payTo 3 1000]]

/-- The block is checked and connected. -/
def connectNext (env : Env) (st : BestChain) (block : MsgBlock) : Except Err BestChain := do
  let c ← checkConnectBlock env st.chain.utxos st.chain.tip st.chain.below block
  connectBlock env st block c

/-- The next block leads to a reached state. -/
theorem Reached.connectNext (h : Reached env st) (hrun : connectNext env st block = .ok st') :
    Reached env st' := by
  obtain ⟨c, -, hconnect⟩ := bind_eq_ok.1 hrun
  exact h.connect hconnect

/-- A run with a block that spends. -/
theorem exists_spendingBlock :
    ∃ one, connectNext (sampleEnv sampleParams) (createChainState (sampleEnv sampleParams))
      sampleBlockOne = .ok one ∧
    ∃ two, connectNext (sampleEnv sampleParams) one (laterBlock 2 0 []) = .ok two ∧
    ∃ c, checkConnectBlock (sampleEnv sampleParams) two.chain.utxos two.chain.tip two.chain.below
      spendingBlock = .ok c ∧
    ∃ three, connectBlock (sampleEnv sampleParams) two spendingBlock c = .ok three ∧
      two.snapshot.numTxns = countNumberOfTransactions spendingBlock two.chain.tip.block ∧
      two.snapshot.blockSize = two.chain.tip.block.header.size := by
  decide +kernel

/-- The third block adds as many transactions as the second one did. -/
theorem statistics_restored_sample : ∃ st st' st'' c, Reached (sampleEnv sampleParams) st ∧
    connectBlock (sampleEnv sampleParams) st spendingBlock c = .ok st' ∧
    disconnectBlock (sampleEnv sampleParams) st' spendingBlock c.view = .ok st'' ∧
    st''.snapshot = st.snapshot ∧ st''.stored = st.stored := by
  obtain ⟨one, hone, two, htwo, c, -, three, hthree, hrestored⟩ := exists_spendingBlock
  have hreached := (Reached.create.connectNext hone).connectNext htwo
  obtain ⟨back, hback, hiff⟩ := statistics_restored_iff hreached hthree c.view
  exact ⟨two, three, back, c, hreached, hthree, hback, hiff.2 hrestored⟩

/-- The first block has added the one transaction of the genesis block, and the second one adds the
two of the first. After it has been disconnected, that is what the snapshot of the first block
says. -/
theorem exists_numTxns_changed : ∃ st st' st'' c, Reached (sampleEnv sampleParams) st ∧
    connectBlock (sampleEnv sampleParams) st (laterBlock 2 0 []) c = .ok st' ∧
    disconnectBlock (sampleEnv sampleParams) st' (laterBlock 2 0 []) c.view = .ok st'' ∧
    st.snapshot.numTxns = 1 ∧ st''.snapshot.numTxns = 2 := by
  have hrun : ∃ one, connectNext (sampleEnv sampleParams)
      (createChainState (sampleEnv sampleParams)) sampleBlockOne =
        .ok one ∧
      ∃ c, checkConnectBlock (sampleEnv sampleParams) one.chain.utxos one.chain.tip one.chain.below
        (laterBlock 2 0 []) = .ok c ∧
      ∃ two, connectBlock (sampleEnv sampleParams) one (laterBlock 2 0 []) c = .ok two ∧
      ∃ back, disconnectBlock (sampleEnv sampleParams) two (laterBlock 2 0 []) c.view = .ok back ∧
      one.snapshot.numTxns = 1 ∧ back.snapshot.numTxns = 2 := by
    decide +kernel
  obtain ⟨one, hone, c, -, two, htwo, back, hback, hchanged⟩ := hrun
  exact ⟨one, two, back, c, Reached.create.connectNext hone, htwo, hback, hchanged⟩

end Hcashd.Blockchain.Statistics
