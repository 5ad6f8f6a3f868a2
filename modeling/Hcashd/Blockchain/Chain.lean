import Hcashd.Blockchain.Connect

/-!
# Extending the main chain

`ProcessBlock` for a block on top of the main chain: the way through `process.go`, `accept.go` and
`chain.go` by which a block is checked, connected and stored. A run is any sequence of blocks that
are accepted one after the other on top of the genesis block.
-/

namespace Hcashd.Blockchain

open Lib Stake

variable (env : Env)

/-- `countSpentOutputs`: how many outputs the journal of a block is expected to hold. -/
def countSpentOutputs (block parent : MsgBlock) : ℕ :=
  let regular := if blockValid block.header.voteBits then
      ((parent.transactions.drop (coinbases env parent.header)).map fun tx => tx.txIn.length).sum
    else 0
  let stake := if isKeyBlock env block.header then
      (block.sTransactions.map fun tx =>
        if txType env tx = .sSGen ∨ txType env tx = .sSRtx then 1 else tx.txIn.length).sum
    else 0
  regular + stake

/-- The state of the node: the last block of the main chain, the chain below it and the utxo set of
the database. -/
structure ChainState where
  tip : ChainBlock
  below : Chain
  utxos : UtxoSet

/-- All blocks of the main chain, newest first. -/
def ChainState.chain (st : ChainState) : Chain := st.tip :: st.below

/-- The state that a new node starts with. The coinbase of the genesis block is not in the utxo
set. -/
def genesisState : ChainState where
  tip := ⟨env.params.genesisBlock, newBlockNode env env.params.genesisBlock, genesisNode⟩
  below := []
  utxos := ∅

/-- `connectBlock`: the number of spent outputs is compared with that of the block, and the view and
the stake node are written to the database. -/
def connectBlock (st : ChainState) (block : MsgBlock) (c : Connecting) : Except Err ChainState := do
  rejectIf (c.stxos.length ≠ countSpentOutputs env block st.tip.block) Err.assertion
  let stakeNode ← fetchStakeNode env st.chain st.tip.stakeNode block
  pure ⟨⟨block, newBlockNode env block, stakeNode⟩, st.chain, dbPutUtxoView st.utxos c.view⟩

/-- The checks of `ProcessBlock` and `maybeAcceptBlock` before a block is connected. -/
def checkBlock (st : ChainState) (adjustedTime : ℤ) (block : MsgBlock) : Except Err PUnit := do
  rejectIf (∃ b ∈ st.chain, b.node.hash = env.blockHash block.header) (Err.rule .duplicateBlock)
  checkBlockSanity env block adjustedTime false
  rejectIf (block.header.prevBlock ≠ st.tip.node.hash) (Err.rule .missingParent)
  prevKeyHashExists env block.header st.tip.block.header
  checkMicroPerKey env st.chain block
  checkBlockContext env block st.tip.block.header (Chain.headers st.chain)

/-- `ProcessBlock` for a block on top of the main chain, at a time of the node's clock. -/
def processBlock (st : ChainState) (adjustedTime : ℤ) (block : MsgBlock) :
    Except Err ChainState := do
  checkBlock env st adjustedTime block
  let c ← checkConnectBlock env st.utxos st.tip st.below block
  connectBlock env st block c

/-- The states that a node can be in after it has accepted blocks one by one, each of which had a
property when it came. -/
inductive Accepted (P : ChainState → MsgBlock → Prop) : ChainState → Prop
  | genesis : Accepted P (genesisState env)
  | block {st st' : ChainState} {adjustedTime : ℤ} {block : MsgBlock} :
    Accepted P st → P st block → processBlock env st adjustedTime block = .ok st' → Accepted P st'

/-- The run over a list of blocks, each with the time at which it comes, that have the property. -/
def processBlocks (P : ChainState → MsgBlock → Prop) [∀ st block, Decidable (P st block)]
    (st : ChainState) (blocks : List (ℤ × MsgBlock)) : Except Err ChainState :=
  blocks.foldlM (fun st (adjustedTime, block) =>
    if P st block then processBlock env st adjustedTime block else .error .other) st

/-- The run over a list of blocks ends in an accepted state. -/
theorem accepted_of_processBlocks {P : ChainState → MsgBlock → Prop}
    [∀ st block, Decidable (P st block)] {st st' : ChainState} {blocks : List (ℤ × MsgBlock)}
    (hst : Accepted env P st) (h : processBlocks env P st blocks = .ok st') :
    Accepted env P st' := by
  refine foldlM_invariant (Accepted env P) (fun item _ s s' hs hstep => ?_) hst h
  dsimp only at hstep
  split_ifs at hstep with hP
  exact .block hs hP hstep

/-- The state after blocks that are processed without an error is accepted. -/
theorem accepted_valueOf {P : ChainState → MsgBlock → Prop} [∀ st block, Decidable (P st block)]
    (blocks : List (ℤ × MsgBlock))
    (h : (processBlocks env P (genesisState env) blocks).isOk = true) :
    Accepted env P (valueOf h) :=
  accepted_of_processBlocks env .genesis (eq_ok_valueOf h)

/-!
## A small network

Stand-ins for what the consensus code is given, small enough to evaluate the runs of single blocks:
the hash of a transaction is its version, that of a block its nonce, so that nonces up to 100 are
key blocks and nonces up to 1600 are micro blocks.
-/

/-- Scripts are told apart by their first byte, and every signature is good. -/
def sampleScript : Txscript where
  parses := fun _ => true
  typeOfScript := fun script => match script.head? with
    | some 0x76 => .pubKeyHash
    | some 0x6a => .nullData
    | some 0xba => .stakeSubmission
    | some 0xbb => .stakeGen
    | some 0xbc => .stakeRevocation
    | some 0xbd => .stakeSubChange
    | _ => .nonStandard
  typeOfSubscript := fun _ => .pubKeyHash
  isReturn := fun script => script.head? == some 0x6a
  hasStakeOpCode := fun _ => false
  pushedData := fun script => script.drop 2
  scriptAddresses := fun script =>
    if script.head? = some 0x76 then [(script.drop 3).take 20] else [(script.drop 4).take 20]
  getSigOpCount := fun _ => 0
  getPreciseSigOpCount := fun _ _ => 0
  execute := fun _ _ _ _ => true

/-- The hash of a block of the small network, from its nonce. -/
def sampleBlockHash (nonce : ℕ) : Hash := Hash.ofBytes (leBytes 32 nonce)

/-- A transaction with a number that has the only input of a coinbase. -/
def coinbaseTx (id : ℕ) (valueIn : ℤ) (outs : List TxOut) : MsgTx where
  version := id
  txIn := [⟨⟨0, MaxPrevOutIndex, TxTreeRegular⟩, MaxTxInSequenceNum, valueIn, 0,
    NullBlockIndex, [0, 0]⟩]
  txOut := outs
  lockTime := 0
  expiry := 0

/-- An input that spends a number of a transaction's outputs, with the value, height and index that
it declares. -/
def spend (id index : ℕ) (tree : ℤ) (valueIn : ℤ) (blockHeight blockIndex : ℕ) : TxIn :=
  ⟨⟨Hash.ofNat id, index, tree⟩, MaxTxInSequenceNum, valueIn, blockHeight, blockIndex, []⟩

/-- A transaction with a number. -/
def plainTx (id : ℕ) (ins : List TxIn) (outs : List TxOut) : MsgTx := ⟨id, ins, outs, 0, 0⟩

/-- An output to the hash of a key. -/
def payTo (key : UInt8) (value : ℤ) : TxOut :=
  ⟨value, 0, [0x76, 0xa9, 0x14] ++ List.replicate 20 key ++ [0x88, 0xac]⟩

/-- The output by which a coinbase names the height of its block. -/
def heightOut (height : ℕ) : TxOut :=
  ⟨0, 0, [0x6a, 36] ++ leBytes 4 height ++ List.replicate 32 0⟩

/-- A header with the nonces of its parent and of the last key block. -/
def sampleHeader (height keyHeight nonce prev prevKey : ℕ) : BlockHeader where
  version := 1
  prevBlock := sampleBlockHash prev
  prevKeyBlock := sampleBlockHash prevKey
  merkleRoot := 0
  stakeRoot := 0
  voteBits := 1
  finalState := List.replicate 6 0
  voters := 0
  freshStake := 0
  revocations := 0
  poolSize := 0
  bits := 0x03000064
  sBits := 10
  height := height
  keyHeight := keyHeight
  size := 1000
  timestamp := height
  nonce := nonce
  extraData := []
  stakeVersion := 0

/-- A network whose block one pays a thousand atoms, and later key blocks a hundred, half of it
after each hundred blocks. -/
def sampleParams : Params where
  genesisBlock := ⟨sampleHeader 0 0 10000 0 0, [coinbaseTx 1 0 [⟨0, 0, []⟩]], []⟩
  powLimit := 100
  difficultyRate := 16
  maxMicroPerKey := 31
  maxTxSize := 1000
  baseSubsidy := 100
  mulSubsidy := 1
  divSubsidy := 2
  subsidyReductionInterval := 100
  workRewardProportion := 45
  stakeRewardProportion := 45
  blockTaxProportion := 10
  microBlockValidationHeight := 0
  minimumStakeDiff := 10
  ticketsPerBlock := 5
  ticketMaturity := 1
  ticketExpiry := 100
  coinbaseMaturity := 1
  sStxChangeMaturity := 1
  maxFreshStakePerBlock := 20
  stakeEnabledHeight := 50
  stakeValidationHeight := 100
  stakeBaseSigScript := [0, 0]
  organizationPkScript := (payTo 9 0).pkScript
  organizationPkScriptVersion := 0
  blockOneLedger := [⟨List.replicate 20 1, 1000⟩]

/-- The stand-ins, on a network with the same proof of work. -/
def sampleEnv (params : Params) : Env where
  params := params
  script := sampleScript
  hashH := fun bytes => Hash.ofNat (0x100000007 ^ bytes.length)
  txHash := fun tx => Hash.ofNat tx.version
  txHashFull := fun tx => Hash.ofNat tx.version
  blockHash := fun header => sampleBlockHash header.nonce
  txSize := fun tx => 100 + tx.txOut.length
  length_txOut_le_txSize := fun _ => Nat.le_add_left _ _
  blockSize := fun _ => 1000
  txLoc := fun block => deserializeTxLoc block.serialize
  txLoc_eq := fun _ => rfl
  maxAmount := 21 * 10 ^ 14
  maxAmount_nonneg := by norm_num
  maxAmount_lt := by norm_num
  checkForDuplicateHashes := false
  requiredDifficulty := fun _ _ => .ok 0x03000064
  requiredStakeDifficulty := fun _ => .ok 10
  maxBlockSize := fun _ => .ok 1000000
  easiestDifficulty := fun bits _ => bits
  verifyCheckpoint := fun _ _ => true
  previousCheckpoint := fun _ => .ok none
  runScripts := fun _ => true
  lotteryFuel := 100

/-- The block with a header, whose roots are filled in. -/
def blockOf (header : BlockHeader) (txs stxs : List MsgTx) : MsgBlock where
  header := { header with
    merkleRoot := match merkleRoot env txs (!isKeyBlock env header) with
      | .ok (some root) => root
      | _ => 0
    stakeRoot := match merkleRoot env stxs false with
      | .ok (some root) => root
      | _ => 0 }
  transactions := txs
  sTransactions := stxs

/-- Block one of the small network. -/
def sampleBlockOne : MsgBlock :=
  blockOf (sampleEnv sampleParams) (sampleHeader 1 0 1 10000 0)
    [coinbaseTx 10 1000 [payTo 1 1000], coinbaseTx 11 0 [payTo 2 0]] []

end Hcashd.Blockchain
