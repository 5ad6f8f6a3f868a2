import Hcashd.Blockchain.Chain
import Hcashd.Blockchain.StoredEntry

/-!
# The stored journal of spent outputs

`serializeSpendJournalEntry` and `deserializeSpendJournalEntry` of `chainio.go`. The outputs that a
block spends are written one after the other, the last one first and without separators, and read
along the inputs of the transactions that spend them, which also say the amount of each and the
block that held it. The elements come back in their order (`exists_restored`). The reader does not
notice the end of the bytes everywhere: the end is a script of no bytes, a transaction version of
zero, and as many outputs of a ticket as were counted, so that bytes which were cut off are taken
for a whole entry (`decodeSpentTxOut_cut`).
-/

namespace Hcashd.Blockchain.Stored

open Lib Hcashd.Stake Hcashd.Blockchain List

variable {α : Type} {r : Except DecodeErr α}

/-! ## Minimal outputs -/

/-- What `putTxToMinimalOutputs` puts for an output. -/
def putMinimalOutput (out : TxOut) : List UInt8 :=
  putVLQ (compressTxOutAmount (uint64 out.value)) ++ (putVLQ out.version ++
    (putVLQ out.pkScript.length ++ out.pkScript))

/-- `putTxToMinimalOutputs`: the number of outputs, and each of them. -/
def putTxToMinimalOutputs (outs : List TxOut) : List UInt8 :=
  putVLQ outs.length ++ outs.flatMap putMinimalOutput

/-- A slice from an offset on, which panics beyond the end. -/
def sliceFrom (serialized : List UInt8) (offset : ℤ) : Except DecodeErr (List UInt8) :=
  if offset < 0 ∨ serialized.length < offset then .error .panic
  else .ok (serialized.drop offset.toNat)

/-- The loop of `readDeserializeSizeOfMinimalOutputs` over the outputs that are left. -/
def skipMinimalOutputs (serialized : List UInt8) : (turns : ℕ) → (offset : ℤ) → Except DecodeErr ℤ
  | 0, offset => .ok offset
  | turns + 1, offset => do
    let (_, bytesRead) := deserializeVLQ (← sliceFrom serialized offset)
    let offset := int64 (offset + bytesRead)
    let (_, bytesRead) := deserializeVLQ (← sliceFrom serialized offset)
    let offset := int64 (offset + bytesRead)
    let (scriptSize, bytesRead) := deserializeVLQ (← sliceFrom serialized offset)
    let offset := int64 (offset + bytesRead)
    skipMinimalOutputs serialized turns (int64 (offset + int64 scriptSize))

/-- `readDeserializeSizeOfMinimalOutputs`: where the minimal outputs end. -/
def readDeserializeSizeOfMinimalOutputs (serialized : List UInt8) : Except DecodeErr ℤ :=
  let (numOutputs, offset) := deserializeVLQ serialized
  skipMinimalOutputs serialized (int64 numOutputs).toNat offset

/-! ## Spent outputs -/

/-- `spentTxOut`, with the fixed widths of the source. -/
structure SpentTxOut where
  pkScript : List UInt8
  stakeExtra : List UInt8
  amount : ℤ
  txVersion : UInt16
  height : ℕ
  index : ℕ
  scriptVersion : UInt16
  txType : TxType
  txFullySpent : Bool
  isCoinBase : Bool
  hasExpiry : Bool
  compressed : Bool
  deriving DecidableEq, Repr

/-- A `spentTxOut` that nothing was read into. -/
def SpentTxOut.zero : SpentTxOut := ⟨[], [], 0, 0, 0, 0, 0, .regular, false, false, false, false⟩

/-- The flags of a spent output. -/
def SpentTxOut.flags (stxo : SpentTxOut) : UInt8 :=
  encodeFlags stxo.isCoinBase stxo.hasExpiry stxo.txType stxo.txFullySpent

/-- `spentTxOutSerializeSize`: the number of bytes of a spent output. -/
def spentTxOutSerializeSize (keys : PubKeys) (stxo : SpentTxOut) : ℕ :=
  serializeSizeVLQ stxo.flags.toNat +
    compressedTxOutSize keys (uint64 stxo.amount) stxo.scriptVersion stxo.pkScript
      stxo.compressed false +
    if stxo.txFullySpent then
      serializeSizeVLQ stxo.txVersion.toNat + if stxo.txType =
        .sStx then stxo.stakeExtra.length else 0
    else 0

/-- What is put for the transaction of an output that was the last one of it to be spent. -/
def putContaining (stxo : SpentTxOut) : List UInt8 :=
  if stxo.txFullySpent then
    putVLQ stxo.txVersion.toNat ++ if stxo.txType = .sStx then stxo.stakeExtra else []
  else []

/-- `putSpentTxOut`: the bytes that are put into the target. -/
def putSpentTxOut (keys : PubKeys) (stxo : SpentTxOut) : List UInt8 :=
  putVLQ stxo.flags.toNat ++
    (putCompressedTxOut keys (uint64 0) stxo.scriptVersion stxo.pkScript stxo.compressed false ++
      putContaining stxo)

/-- What is read of the transaction of a fully spent output: its version, its data for the staking
system, and the number of bytes. -/
def decodeContaining (txType : TxType) (serialized : List UInt8) :
    Except DecodeErr (UInt16 × List UInt8 × ℕ) := do
  let (txVersion, bytesRead) := deserializeVLQ serialized
  let rest := serialized.drop bytesRead
  if txType = .sStx then
    let sz ← readDeserializeSizeOfMinimalOutputs rest
    rejectIf (sz = 0 ∨ rest.length < sz)
      (.errDeserialize "corrupt data for ticket fully spent stxo stakeextra")
    -- a slice of a negative length is not made
    rejectIf (sz < 0) .panic
    pure (UInt16.ofNat txVersion, rest.take sz.toNat, bytesRead + sz.toNat)
  else pure (UInt16.ofNat txVersion, [], bytesRead)

/-- What is read after the flags of a spent output. The check that the offset after the version is
not beyond the end is left out: it never is. -/
def decodeFlagged (flags : UInt8) (serialized : List UInt8) (amount : ℤ) (height index : ℕ) :
    Except DecodeErr (SpentTxOut × ℕ) := do
  let out ← withText "unable to decode txout: " (decodeCompressedTxOut serialized false)
  if decodeFlagsFullySpent flags then
    let (isCoinBase, hasExpiry, txType, _) := decodeFlags flags
    let (txVersion, stakeExtra, bytesRead) ← decodeContaining txType (serialized.drop out.bytesRead)
    pure (⟨out.compressedScript, stakeExtra, amount, txVersion, height, index, out.scriptVersion,
      txType, true, isCoinBase, hasExpiry, true⟩, out.bytesRead + bytesRead)
  else
    pure ({ SpentTxOut.zero with
      pkScript := out.compressedScript, amount := amount, height := height, index := index,
      scriptVersion := out.scriptVersion, compressed := true }, out.bytesRead)

/-- `decodeSpentTxOut`, with the number of bytes. -/
def decodeSpentTxOut (serialized : List UInt8) (amount : ℤ) (height index : ℕ) :
    Except DecodeErr (SpentTxOut × ℕ) := do
  rejectIf (serialized = []) (.errDeserialize "no serialized bytes")
  let (flags, offset) := deserializeVLQ serialized
  rejectIf (serialized.length ≤ offset)
    (.errDeserialize "unexpected end of data after spent tx out flags")
  let (stxo, n) ← decodeFlagged (UInt8.ofNat flags) (serialized.drop offset) amount height index
  pure (stxo, offset + n)

/-! ## The journal -/

/-- The number of outputs that transactions spend, as the reader counts them. -/
def numStxos (s : Txscript) (txns : List MsgTx) : ℕ :=
  (txns.map fun tx => if determineTxType s tx = .sSGen then 1 else tx.txIn.length).sum

/-- The inputs that outputs are read for, in the order of the transactions. The first input of a
vote is skipped. -/
def journalInputs (s : Txscript) (txns : List MsgTx) : List TxIn :=
  txns.flatMap fun tx => if determineTxType s tx = .sSGen then tx.txIn.drop 1 else tx.txIn

/-- The loop that reads outputs along the inputs, from the last one on, into the slots before those
that are read already. -/
def readStxos :
    (inputs : List TxIn) → (slots : ℕ) → (serialized : List UInt8) → (stxos : List SpentTxOut) →
    Except DecodeErr (List SpentTxOut)
  | [], slots, _, stxos => .ok (replicate slots SpentTxOut.zero ++ stxos)
  | _ :: _, 0, _, _ => .error .panic
  | txIn :: inputs, slots + 1, serialized, stxos => do
    let (stxo, n) ← withText "unable to decode stxo: "
      (decodeSpentTxOut serialized txIn.valueIn txIn.blockHeight txIn.blockIndex)
    readStxos inputs slots (serialized.drop n) (stxo :: stxos)

/-- `deserializeSpendJournalEntry`: the outputs, read along the transactions. -/
def deserializeSpendJournalEntry (s : Txscript) (serialized : List UInt8) (txns : List MsgTx) :
    Except DecodeErr (List SpentTxOut) :=
  if serialized = [] then do
    rejectIf (numStxos s txns ≠ 0) (.assertion "mismatched spend journal serialization")
    pure []
  else readStxos (journalInputs s txns).reverse (numStxos s txns) serialized []

/-- One write, whose length is compared with the one that was computed before. -/
def writeSpentTxOut (keys : PubKeys) (stxo : SpentTxOut) : Except DecodeErr (List UInt8) := do
  rejectIf ((putSpentTxOut keys stxo).length ≠ spentTxOutSerializeSize keys stxo)
    (.assertion "bad write")
  pure (putSpentTxOut keys stxo)

/-- `serializeSpendJournalEntry`: the outputs, the last one first. -/
def serializeSpendJournalEntry (keys : PubKeys) (stxos : List SpentTxOut) :
    Except DecodeErr (List UInt8) := do
  let parts ← stxos.reverse.mapM (writeSpentTxOut keys)
  filled (stxos.map (spentTxOutSerializeSize keys)).sum parts.flatten

/-! ## Reading past minimal outputs -/

/-- Bytes that were put for outputs. -/
structure Minimal (stakeExtra : List UInt8) (outs : List TxOut) : Prop where
  eq : stakeExtra = putTxToMinimalOutputs outs
  version_lt : ∀ out ∈ outs, out.version < 2^16
  length_lt : stakeExtra.length < 2^63

theorem int64_zero : int64 0 = 0 := by decide

section Skip

variable {serialized : List UInt8} {offset : ℕ}

theorem sliceFrom_of_le (h : offset ≤ serialized.length) :
    sliceFrom serialized offset = .ok (serialized.drop offset) := by
  rw [sliceFrom, if_neg (by omega), Int.toNat_natCast]

theorem skipMinimalOutputs_succ (h : offset ≤ serialized.length) (turns : ℕ) {rest : List UInt8}
    (hrest : serialized.drop offset = rest) {n1 n2 n3 b1 b2 b3 : ℕ}
    (h1 : deserializeVLQ rest = (n1, b1))
    (h2 : deserializeVLQ (rest.drop b1) = (n2, b2))
    (h3 : deserializeVLQ (rest.drop (b1 + b2)) = (n3, b3))
    (hsum : offset + (b1 + b2 + b3) < 2^63) :
    skipMinimalOutputs serialized (turns + 1) offset
      = skipMinimalOutputs serialized turns (int64 (offset + (b1 + b2 + b3) + int64 n3)) := by
  have hlength : offset + rest.length = serialized.length := by
    rw [← hrest, length_drop]
    omega
  have hb1 := deserializeVLQ_snd_le rest
  have hb2 := deserializeVLQ_snd_le (rest.drop b1)
  rw [h1] at hb1
  rw [h2, length_drop] at hb2
  have hdrop : ∀ k, serialized.drop (offset + k) = rest.drop k := by
    intro k
    rw [← hrest, drop_drop]
  have hs1 : sliceFrom serialized (offset + b1) = .ok (rest.drop b1) := by
    have hslice : sliceFrom serialized ((offset + b1 : ℕ) : ℤ) = _ :=
      sliceFrom_of_le (by simp only at hb1; omega)
    rw [hdrop] at hslice
    exact_mod_cast hslice
  have hs2 : sliceFrom serialized (offset + b1 + b2) = .ok (rest.drop (b1 + b2)) := by
    have hslice : sliceFrom serialized ((offset + (b1 + b2) : ℕ) : ℤ) = _ :=
      sliceFrom_of_le (by simp only at hb1 hb2; omega)
    rw [hdrop] at hslice
    rw [← hslice]
    push_cast
    rw [add_assoc]
  rw [skipMinimalOutputs, sliceFrom_of_le h, ok_bind, hrest, h1]
  dsimp only
  rw [int64_of_range (by omega) (by omega), hs1, ok_bind, h2]
  dsimp only
  rw [int64_of_range (by omega) (by omega), hs2, ok_bind, h3]
  dsimp only
  rw [int64_of_range (x := (offset : ℤ) + b1 + b2 + b3) (by omega) (by omega),
    add_assoc (offset : ℤ), add_assoc (offset : ℤ)]

theorem skipMinimalOutputs_end (hlt : serialized.length < 2^63) (turns : ℕ) :
    skipMinimalOutputs serialized turns serialized.length = .ok (serialized.length : ℤ) := by
  have hempty : deserializeVLQ [] = (0, 0) := rfl
  induction turns with
  | zero => rfl
  | succ turns ih =>
    rw [skipMinimalOutputs_succ le_rfl turns drop_length hempty hempty hempty hlt, Nat.cast_zero,
      int64_zero, int64_of_range (by omega) (by omega)]
    simpa using ih

theorem skipMinimalOutputs_of_lt {offset : ℤ} (h : serialized.length < offset) (turns : ℕ) :
    skipMinimalOutputs serialized (turns + 1) offset = .error .panic := by
  rw [skipMinimalOutputs, sliceFrom, if_pos (Or.inr h)]
  rfl

end Skip

section Outputs

variable {out : TxOut} {front : List UInt8}

/-- The size of an output. -/
theorem length_putMinimalOutput (out : TxOut) : (putMinimalOutput out).length =
    serializeSizeVLQ (compressTxOutAmount (uint64 out.value)) + serializeSizeVLQ out.version +
      serializeSizeVLQ out.pkScript.length + out.pkScript.length := by
  simp only [putMinimalOutput, length_append, length_putVLQ]
  omega

/-- What is put for an output before its script. -/
def minimalHead (out : TxOut) : List UInt8 :=
  putVLQ (compressTxOutAmount (uint64 out.value)) ++
    (putVLQ out.version ++ putVLQ out.pkScript.length)

theorem putMinimalOutput_eq (out : TxOut) :
    putMinimalOutput out = minimalHead out ++ out.pkScript := by
  simp only [putMinimalOutput, minimalHead, append_assoc]

variable (hversion : out.version < 2^16)
  (hlen : front.length + (putMinimalOutput out).length < 2^63)

include hversion hlen

theorem skipMinimalOutputs_turn (rest : List UInt8) (turns : ℕ) :
    skipMinimalOutputs (front ++ (minimalHead out ++ rest)) (turns + 1) front.length
      = skipMinimalOutputs (front ++ (minimalHead out ++ rest)) turns
          (front.length + (putMinimalOutput out).length : ℕ) := by
  rw [length_putMinimalOutput] at hlen ⊢
  rw [minimalHead, append_assoc, append_assoc, skipMinimalOutputs_succ (by simp) turns drop_left
      (deserializeVLQ_putVLQ_append (compressTxOutAmount_lt _) _)
      (by rw [drop_putVLQ_append, deserializeVLQ_putVLQ_append (show out.version < 2^64 by omega)])
      (by rw [← drop_drop, drop_putVLQ_append, drop_putVLQ_append,
            deserializeVLQ_putVLQ_append (show out.pkScript.length < 2^64 by omega)]) (by omega),
    int64_of_range (x := (out.pkScript.length : ℤ)) (by omega) (by omega),
    int64_of_range (by omega) (by omega)]
  push_cast
  rw [add_assoc (front.length : ℤ)]

/-- One output is skipped in one turn. -/
theorem skipMinimalOutputs_output (rest : List UInt8) (turns : ℕ) :
    skipMinimalOutputs (front ++ putMinimalOutput out ++ rest) (turns + 1) front.length
      = skipMinimalOutputs (front ++ putMinimalOutput out ++ rest) turns
        (front ++ putMinimalOutput out).length := by
  have hturn := skipMinimalOutputs_turn hversion hlen (out.pkScript ++ rest) turns
  rwa [← append_assoc (minimalHead out), ← putMinimalOutput_eq, ← append_assoc,
    ← length_append] at hturn

/-- An output that is cut off is skipped past the end. -/
theorem skipMinimalOutputs_cut (turns : ℕ) {cut : List UInt8}
    (hcut : Cut cut (putMinimalOutput out)) :
    ∃ offset : ℤ, skipMinimalOutputs (front ++ cut) (turns + 1) front.length
        = skipMinimalOutputs (front ++ cut) turns offset ∧
      (offset = (front ++ cut).length ∨ (front ++ cut).length < offset ∧ out.pkScript ≠ []) := by
  have hshort := hcut.length_lt
  have hscript : out.pkScript.length < 2^63 := by
    rw [length_putMinimalOutput] at hlen
    omega
  rw [putMinimalOutput_eq] at hcut
  rcases hcut.append_cases with hhead | ⟨rest, rfl, hrest⟩
  · have hlength : (front ++ cut).length = front.length + cut.length := length_append
    have hle : front.length ≤ (front ++ cut).length := by omega
    have hdrop : (front ++ cut).drop front.length = cut := drop_left
    have hempty : deserializeVLQ [] = (0, 0) := rfl
    -- the quantity that the bytes end in is read to its end
    have hread : ∀ {n : ℕ} {bs : List UInt8}, n < 2^64 → Cut bs (putVLQ n) →
        deserializeVLQ bs = ((deserializeVLQ bs).1, bs.length) :=
      fun hn hbs => Prod.ext rfl (deserializeVLQ_snd_of_isPrefix hn hbs.isPrefix)
    rcases hhead.append_cases with hamount | ⟨cut1, rfl, hcut1⟩
    · refine ⟨_, skipMinimalOutputs_succ hle turns hdrop (hread (compressTxOutAmount_lt _) hamount)
        (by rw [drop_length, hempty]) (by rw [Nat.add_zero, drop_length, hempty]) (by omega),
        Or.inl ?_⟩
      rw [hlength, Nat.cast_zero, int64_zero, int64_of_range (by omega) (by omega)]
      simp
    rcases hcut1.append_cases with hver | ⟨cut2, rfl, hsize⟩
    · refine ⟨_, skipMinimalOutputs_succ hle turns hdrop
        (deserializeVLQ_putVLQ_append (compressTxOutAmount_lt _) _)
        ((congrArg deserializeVLQ (drop_putVLQ_append _ _)).trans
          (hread (show out.version < 2^64 by omega) hver))
        (by rw [← drop_drop, drop_putVLQ_append, drop_length, hempty]) ?_, Or.inl ?_⟩
      all_goals rw [length_append, length_putVLQ] at hshort
      · omega
      · rw [hlength, Nat.cast_zero, int64_zero, int64_of_range (by omega) (by omega)]
        simp
    rw [length_append, length_append, length_putVLQ, length_putVLQ] at hshort
    have hturn := fun {n3 b3 : ℕ} (h3 : deserializeVLQ cut2 = (n3, b3)) =>
      skipMinimalOutputs_succ hle turns hdrop
        (deserializeVLQ_putVLQ_append (compressTxOutAmount_lt _) _)
        ((congrArg deserializeVLQ (drop_putVLQ_append _ _)).trans
          (deserializeVLQ_putVLQ_append (show out.version < 2^64 by omega) _))
        (show deserializeVLQ _ =
          (n3, b3) by rw [← drop_drop, drop_putVLQ_append, drop_putVLQ_append, h3])
    rcases eq_or_ne cut2 [] with rfl | hnil
    · rw [length_nil] at hshort
      refine ⟨_, hturn hempty (by omega), Or.inl ?_⟩
      rw [Nat.cast_zero, int64_zero, int64_of_range (by omega) (by omega)]
      simp
    · obtain ⟨m, hm, hpos, hle', -⟩ := exists_deserializeVLQ_of_cut (by omega) hsize hnil
      have hsmall := hsize.length_lt
      rw [length_putMinimalOutput] at hlen
      rw [length_putVLQ] at hsmall
      refine ⟨_, hturn hm (by omega), Or.inr ⟨?_, fun hscript => ?_⟩⟩
      · rw [int64_of_range (x := (m : ℤ)) (by omega) (by omega),
          int64_of_range (by omega) (by omega)]
        simp only [length_append, length_putVLQ]
        push_cast
        omega
      · rw [hscript, length_nil] at hle'
        omega
  · -- the bytes end in the script
    have hlt := hrest.length_lt
    refine ⟨_, skipMinimalOutputs_turn hversion hlen rest turns, Or.inr ⟨?_, ?_⟩⟩
    · rw [length_putMinimalOutput]
      simp only [minimalHead, length_append, length_putVLQ]
      push_cast
      omega
    · exact ne_nil_of_length_pos (by omega)

end Outputs

section Lists

variable {outs : List TxOut} (houts : ∀ out ∈ outs, out.version < 2^16)

include houts

/-- All outputs are skipped one by one. -/
theorem skipMinimalOutputs_flatMap {front : List UInt8}
    (hlen : front.length + (outs.flatMap putMinimalOutput).length < 2^63) (rest : List UInt8)
    (turns : ℕ) :
    skipMinimalOutputs (front ++ outs.flatMap putMinimalOutput ++ rest)
    (outs.length + turns) front.length
      = skipMinimalOutputs (front ++ outs.flatMap putMinimalOutput ++ rest) turns
          (front ++ outs.flatMap putMinimalOutput).length := by
  induction outs generalizing front with
  | nil => simp
  | cons out outs ih =>
    obtain ⟨hversion, houts⟩ := forall_mem_cons.1 houts
    rw [flatMap_cons, length_append] at hlen
    have hturn := skipMinimalOutputs_output hversion (show front.length + _ < 2^63 by omega)
      (outs.flatMap putMinimalOutput ++ rest) (outs.length + turns)
    rw [← append_assoc] at hturn
    rw [flatMap_cons, ← append_assoc front, length_cons, Nat.add_right_comm, hturn,
      ih houts (by rw [length_append]; omega)]

/-- The loop over outputs that are cut off ends at the end of the bytes or beyond it, if the script
of no output but the last is what is cut off. -/
theorem exists_skipMinimalOutputs_cut (hscripts : ∀ out ∈ outs.dropLast, out.pkScript = [])
    {front : List UInt8} (hlen : front.length + (outs.flatMap putMinimalOutput).length < 2^63)
    {cut : List UInt8} (hcut : Cut cut (outs.flatMap putMinimalOutput)) :
    ∃ offset : ℤ, skipMinimalOutputs (front ++ cut) outs.length front.length = .ok offset ∧
      ((front ++ cut).length : ℤ) ≤ offset := by
  induction outs generalizing front cut with
  | nil => exact absurd hcut not_cut_nil
  | cons out outs ih =>
    obtain ⟨hversion, houts⟩ := forall_mem_cons.1 houts
    rw [flatMap_cons] at hcut hlen
    rw [length_append] at hlen
    have hlen' : front.length + (putMinimalOutput out).length < 2^63 := by omega
    rcases hcut.append_cases with hcut | ⟨rest, rfl, hrest⟩
    · obtain ⟨offset, hturn, hoffset⟩ := skipMinimalOutputs_cut hversion hlen' outs.length hcut
      have hshort := hcut.length_lt
      rw [length_cons, hturn]
      rcases hoffset with rfl | ⟨hlt, hne⟩
      · exact ⟨_, skipMinimalOutputs_end (by rw [length_append]; omega) _, le_rfl⟩
      · -- an output with a script is the last one
        obtain rfl : outs = [] := by
          by_contra hmore
          exact hne (hscripts out (by rw [dropLast_cons_of_ne_nil hmore]; exact mem_cons_self))
        exact ⟨offset, rfl, hlt.le⟩
    · have hscripts' : ∀ o ∈ outs.dropLast, o.pkScript = [] := by
        intro o ho
        have hmore : outs ≠ [] := fun h => by simp [h] at ho
        exact hscripts o (by rw [dropLast_cons_of_ne_nil hmore]; exact mem_cons_of_mem _ ho)
      rw [← append_assoc, length_cons, skipMinimalOutputs_output hversion hlen']
      exact ih houts hscripts' (by rw [length_append]; omega) hrest

end Lists

theorem length_le_length_flatMap (outs : List TxOut) :
    outs.length ≤ (outs.flatMap putMinimalOutput).length := by
  have hsum : (outs.map fun out => (putMinimalOutput out).length).length ≤ _ :=
    length_le_sum_of_one_le _ fun n hn => by
      obtain ⟨out, -, rfl⟩ := mem_map.1 hn
      rw [length_putMinimalOutput]
      have hpos := serializeSizeVLQ_pos out.version
      omega
  rwa [length_map, ← length_flatMap] at hsum

namespace Minimal

variable {stakeExtra : List UInt8} {outs : List TxOut} (h : Minimal stakeExtra outs)

include h

theorem length_eq :
    stakeExtra.length = serializeSizeVLQ outs.length + (outs.flatMap putMinimalOutput).length := by
  rw [h.eq, putTxToMinimalOutputs, length_append, length_putVLQ]

theorem bytes_lt : (putVLQ outs.length).length + (outs.flatMap putMinimalOutput).length < 2^63 := by
  rw [length_putVLQ, ← h.length_eq]
  exact h.length_lt

theorem count_lt : outs.length < 2^63 := by
  have hle := length_le_length_flatMap outs
  have hlength := h.length_eq
  have hlt := h.length_lt
  omega

theorem readDeserializeSizeOfMinimalOutputs_eq (rest : List UInt8) :
    readDeserializeSizeOfMinimalOutputs (putVLQ outs.length ++ rest)
      = skipMinimalOutputs (putVLQ outs.length ++ rest) outs.length
        (putVLQ outs.length).length := by
  have hcount := h.count_lt
  rw [readDeserializeSizeOfMinimalOutputs, deserializeVLQ_putVLQ_append (by omega), length_putVLQ]
  dsimp only
  rw [int64_of_range (by omega) (by omega), Int.toNat_natCast]

/-- The size of the outputs of a ticket, whatever follows them. -/
theorem readDeserializeSizeOfMinimalOutputs_append (suffix : List UInt8) :
    readDeserializeSizeOfMinimalOutputs (stakeExtra ++ suffix) = .ok (stakeExtra.length : ℤ) := by
  have hskip := skipMinimalOutputs_flatMap h.version_lt h.bytes_lt suffix 0
  rw [Nat.add_zero] at hskip
  rw [h.eq, putTxToMinimalOutputs, append_assoc, h.readDeserializeSizeOfMinimalOutputs_eq,
    ← append_assoc, hskip]
  rfl

/-- Outputs that are cut off have a size beyond the end. -/
theorem exists_readDeserializeSizeOfMinimalOutputs_cut
    (hscripts : ∀ out ∈ outs.dropLast, out.pkScript = [])
    {cut : List UInt8} (hcut : Cut cut stakeExtra) :
    ∃ offset : ℤ, readDeserializeSizeOfMinimalOutputs cut = .ok offset ∧
    (cut.length : ℤ) ≤ offset := by
  have hcount := h.count_lt
  rw [h.eq] at hcut
  rcases hcut.append_cases with hcut | ⟨rest, rfl, hrest⟩
  · -- the bytes end in the number of outputs
    refine ⟨cut.length, ?_, le_rfl⟩
    calc readDeserializeSizeOfMinimalOutputs cut
        = skipMinimalOutputs cut (int64 (deserializeVLQ cut).1).toNat
          ((deserializeVLQ cut).2 : ℤ) := rfl
      _ = .ok (cut.length : ℤ) := by
        have hshort := hcut.length_lt
        have hlt := h.bytes_lt
        rw [deserializeVLQ_snd_of_isPrefix (by omega) hcut.isPrefix,
          skipMinimalOutputs_end (by omega)]
  · rw [h.readDeserializeSizeOfMinimalOutputs_eq]
    exact exists_skipMinimalOutputs_cut h.version_lt hscripts h.bytes_lt hrest

end Minimal

/-- In the script of an output that others follow, the bytes of outputs can be cut off where the
reader panics. -/
theorem Minimal.exists_cut_panics {stakeExtra : List UInt8} {before after : List TxOut}
    {out : TxOut} (h : Minimal stakeExtra (before ++ out :: after)) (hafter : after ≠ [])
    (hne : out.pkScript ≠ []) :
    ∃ cut, Cut cut stakeExtra ∧ readDeserializeSizeOfMinimalOutputs cut = .error .panic := by
  obtain ⟨turns, hturns⟩ : ∃ turns, after.length = turns + 1 :=
    Nat.exists_eq_succ_of_ne_zero (length_pos_of_ne_nil hafter).ne'
  have hbefore : ∀ o ∈ before, o.version < 2^16 := fun o ho => h.version_lt o (mem_append_left _ ho)
  have hsplit : ((before ++ out :: after).flatMap putMinimalOutput).length =
      (before.flatMap putMinimalOutput).length +
        ((putMinimalOutput out).length + (after.flatMap putMinimalOutput).length) := by
    rw [flatMap_append, flatMap_cons, length_append, length_append]
  have hlen := h.bytes_lt
  rw [hsplit] at hlen
  have hpos := length_pos_of_ne_nil hne
  -- what stands before the script
  have hextra :
      stakeExtra = putVLQ (before ++ out :: after).length ++ before.flatMap putMinimalOutput ++
      minimalHead out ++ (out.pkScript ++ after.flatMap putMinimalOutput) := by
    rw [h.eq, putTxToMinimalOutputs, flatMap_append, flatMap_cons, putMinimalOutput_eq]
    simp only [append_assoc]
  refine ⟨_, ⟨⟨_, hextra.symm⟩, fun heq => ?_⟩, ?_⟩
  · rw [hextra] at heq
    have hnil := self_eq_append_right.1 heq
    exact hne (append_eq_nil_iff.1 hnil).1
  · have hread :=
      h.readDeserializeSizeOfMinimalOutputs_eq (before.flatMap putMinimalOutput ++ minimalHead out)
    have hlen' :
        (putVLQ (before ++ out :: after).length ++ before.flatMap putMinimalOutput).length +
        (putMinimalOutput out).length < 2^63 := by
      rw [length_append]
      omega
    have hturn := skipMinimalOutputs_turn (h.version_lt out (by simp)) hlen' [] (turns + 1)
    have hskip := fun turns => skipMinimalOutputs_flatMap hbefore
      (show (putVLQ (before ++ out :: after).length).length + _ < 2^63 by omega)
        (minimalHead out) turns
    rw [← append_assoc] at hread
    rw [append_nil] at hturn
    rw [show (before ++ out :: after).length = before.length + (turns + 1 + 1) by
      rw [length_append, length_cons, hturns]] at hread hturn hskip ⊢
    rw [hread, hskip, hturn, skipMinimalOutputs_of_lt]
    rw [length_putMinimalOutput]
    simp only [minimalHead, length_append, length_putVLQ]
    push_cast
    omega

/-! ## Reading spent outputs back -/

/-- What is known of a spent output: a script that is compressed already is one that was put, and
the data of a fully spent ticket are its outputs. -/
structure SpentTxOut.WellFormed (keys : PubKeys) (stxo : SpentTxOut) : Prop where
  script : IsCompressed keys (storedScript keys stxo.scriptVersion stxo.pkScript stxo.compressed)
  extra : stxo.txFullySpent = true → stxo.txType = .sStx → ∃ outs, Minimal stxo.stakeExtra outs

/-- A spent output as it is read back: with its script as it is stored, and with what is said about
its transaction if it was the last one of it to be spent. -/
def SpentTxOut.stored (keys : PubKeys) (stxo : SpentTxOut) : SpentTxOut :=
  if stxo.txFullySpent then
    { stxo with
      pkScript := storedScript keys stxo.scriptVersion stxo.pkScript stxo.compressed
      stakeExtra := if stxo.txType = .sStx then stxo.stakeExtra else []
      compressed := true }
  else
    { SpentTxOut.zero with
      pkScript := storedScript keys stxo.scriptVersion stxo.pkScript stxo.compressed
      amount := stxo.amount
      height := stxo.height
      index := stxo.index
      scriptVersion := stxo.scriptVersion
      compressed := true }

/-- The size that is computed is the size of the bytes. -/
theorem length_putSpentTxOut (keys : PubKeys) (stxo : SpentTxOut) :
    (putSpentTxOut keys stxo).length = spentTxOutSerializeSize keys stxo := by
  unfold putSpentTxOut spentTxOutSerializeSize putContaining
  simp only [length_append, length_putVLQ, length_putCompressedTxOut, apply_ite length, length_nil,
    compressedTxOutSize, Bool.false_eq_true, if_false, Nat.add_assoc]

section Element

variable {keys : PubKeys} {stxo : SpentTxOut} (h : stxo.WellFormed keys)

include h in
/-- The data of the transaction come back. -/
theorem decodeContaining_append (hspent : stxo.txFullySpent = true) (suffix : List UInt8) :
    decodeContaining stxo.txType (putContaining stxo ++ suffix) = .ok (stxo.txVersion,
      (if stxo.txType = .sStx then stxo.stakeExtra else []), (putContaining stxo).length) := by
  have hversion := stxo.txVersion.toNat_lt
  rw [putContaining, if_pos hspent, decodeContaining, append_assoc,
    deserializeVLQ_putVLQ_append (by omega)]
  dsimp only
  rw [drop_putVLQ_append, UInt16.ofNat_toNat]
  split_ifs with hticket
  · obtain ⟨outs, hminimal⟩ := h.extra hspent hticket
    have hpos : stxo.stakeExtra.length ≠ 0 := by
      have hcount := serializeSizeVLQ_pos outs.length
      rw [hminimal.length_eq]
      omega
    have hbounds : ¬ ((stxo.stakeExtra.length : ℤ) = 0 ∨ ((stxo.stakeExtra ++ suffix).length : ℤ)
        < stxo.stakeExtra.length) := by
      rw [length_append]
      push_cast
      omega
    rw [hminimal.readDeserializeSizeOfMinimalOutputs_append, ok_bind, rejectIf_bind hbounds,
      rejectIf_bind (by omega), Int.toNat_natCast, take_left, length_append, length_putVLQ]
    rfl
  · rw [append_nil, length_putVLQ]
    rfl

/-- The flags come back. -/
theorem decodeFlags_flags (stxo : SpentTxOut) :
    decodeFlags stxo.flags = (stxo.isCoinBase, stxo.hasExpiry, stxo.txType, stxo.txFullySpent) :=
  (decodeFlags_encodeFlags _ _ _ _).2

theorem decodeFlagsFullySpent_flags (stxo : SpentTxOut) :
    decodeFlagsFullySpent stxo.flags = stxo.txFullySpent :=
  congrArg (fun flags => flags.2.2.2) (decodeFlags_flags stxo)

/-- What is put after the flags of a spent output. -/
def putFlagged (keys : PubKeys) (stxo : SpentTxOut) : List UInt8 :=
  putCompressedTxOut keys (uint64 0) stxo.scriptVersion stxo.pkScript stxo.compressed false ++
    putContaining stxo

theorem putSpentTxOut_eq_cons (keys : PubKeys) (stxo : SpentTxOut) :
    putSpentTxOut keys stxo = stxo.flags :: putFlagged keys stxo := by
  have hflags : ∀ isCoinBase hasExpiry fullySpent : Bool, ∀ txType : TxType,
      putVLQ (encodeFlags isCoinBase hasExpiry txType fullySpent).toNat
        = [encodeFlags isCoinBase hasExpiry txType fullySpent] := by
    intro isCoinBase hasExpiry fullySpent txType
    revert isCoinBase hasExpiry fullySpent
    cases txType <;> decide +kernel
  have hvlq : putVLQ stxo.flags.toNat = [stxo.flags] := hflags _ _ _ _
  rw [putSpentTxOut, hvlq]
  rfl

theorem decodeSpentTxOut_cons {rest : List UInt8} (hrest : rest ≠ []) (amount : ℤ)
    (height index : ℕ) :
    decodeSpentTxOut (stxo.flags :: rest) amount height index
      = decodeFlagged stxo.flags rest amount height index >>= fun r => pure (r.1, 1 + r.2) := by
  have hlt : stxo.flags < 0x80 := (decodeFlags_encodeFlags _ _ _ _).1
  have hpos := length_pos_of_ne_nil hrest
  rw [decodeSpentTxOut, rejectIf_bind (cons_ne_nil _ _), deserializeVLQ_tag hlt]
  dsimp only
  rw [rejectIf_bind (by rw [length_cons]; omega), UInt8.ofNat_toNat]
  rfl

include h in
/-- What follows the flags comes back. -/
theorem decodeFlagged_append (suffix : List UInt8) :
    decodeFlagged stxo.flags (putFlagged keys stxo ++ suffix) stxo.amount stxo.height stxo.index
      = .ok (stxo.stored keys, (putFlagged keys stxo).length) := by
  have hzero : 9 * (0 : ℤ) + 10 < 2^64 := by norm_num
  have hout :=
    decodeCompressedTxOut_append le_rfl hzero h.script false (putContaining stxo ++ suffix)
  rw [decodeFlagged, putFlagged, append_assoc, hout, withText_ok, ok_bind,
    decodeFlagsFullySpent_flags]
  rw [drop_left, SpentTxOut.stored, length_append]
  by_cases hspent : stxo.txFullySpent = true
  · rw [if_pos hspent, if_pos hspent, decodeFlags_flags]
    dsimp only
    rw [decodeContaining_append h hspent, ok_bind]
    simp [pure, Except.pure, hspent]
  · rw [if_neg hspent, if_neg hspent, putContaining, if_neg hspent]
    rfl

include h in
/-- An entry of the journal is decoded again. -/
theorem decodeSpentTxOut_append (suffix : List UInt8) :
    decodeSpentTxOut (putSpentTxOut keys stxo ++ suffix) stxo.amount stxo.height stxo.index
      = .ok (stxo.stored keys, (putSpentTxOut keys stxo).length) := by
  have hne : putFlagged keys stxo ++ suffix ≠ [] := append_ne_nil_of_left_ne_nil
    (append_ne_nil_of_left_ne_nil (putCompressedTxOut_ne_nil _ _ _ _ _ _) _) _
  rw [putSpentTxOut_eq_cons, cons_append, decodeSpentTxOut_cons hne,
    decodeFlagged_append h, ok_bind, length_cons, Nat.add_comm _ 1]
  rfl

end Element

/-! ## Bytes that are cut off -/

/-- An error is returned. -/
def Reported {α : Type} (r : Except DecodeErr α) : Prop := ∃ e, e ≠ .panic ∧ r = .error e

/-- An error of the first step is the error of both. -/
theorem Reported.bind {β : Type} (h : Reported r) (f : α → Except DecodeErr β) :
    Reported (r >>= f) := by
  obtain ⟨e, he, rfl⟩ := h
  exact ⟨e, he, rfl⟩

/-- A reported error stays reported. -/
theorem Reported.withText (h : Reported r) (text : String) : Reported (withText text r) := by
  obtain ⟨e, he, rfl⟩ := h
  cases e with
  | errDeserialize | assertion => exact ⟨_, by simp, rfl⟩
  | panic => exact absurd rfl he

theorem reported_rejectIf {c : Prop} [Decidable c] {e : DecodeErr} (hc : c) (he : e ≠ .panic)
    (f : PUnit → Except DecodeErr α) : Reported (rejectIf c e >>= f) :=
  ⟨e, he, by rw [rejectIf, if_pos hc]; rfl⟩

theorem decodeVersionedScript_of_read {cut : List UInt8}
    (hread : (deserializeVLQ cut).2 = cut.length) :
    decodeVersionedScript cut = .ok (UInt16.ofNat (deserializeVLQ cut).1, [], cut.length) := by
  have hempty : decodeCompressedScriptSize [] = 0 := rfl
  rw [decodeVersionedScript]
  dsimp only
  rw [hread, drop_length, hempty, rejectIf_bind (by simp), rejectIf_bind (by simp)]
  rfl

/-- A script that is cut off is reported or read as empty. -/
theorem decodeVersionedScript_cut {keys : PubKeys} {bs cut : List UInt8}
    (hbs : IsCompressed keys bs)
    (scriptVersion : UInt16) (hcut : Cut cut (putVLQ scriptVersion.toNat ++ bs)) :
    Reported (decodeVersionedScript cut) ∨
      ∃ v script n, decodeVersionedScript cut = .ok (v, script, n) ∧ n ≤ cut.length ∧
      cut.length ≤ n + 1 := by
  obtain ⟨pkScript, hputs⟩ := hbs.puts
  have hversion := scriptVersion.toNat_lt
  rcases hcut.append_cases with hcut | ⟨rest, rfl, hrest⟩
  · have hread := deserializeVLQ_snd_of_isPrefix (by omega) hcut.isPrefix
    exact Or.inr ⟨_, _, _, decodeVersionedScript_of_read hread, le_rfl, Nat.le_succ _⟩
  rcases eq_or_ne rest [] with rfl | hnil
  · have hread :=
      deserializeVLQ_snd_of_isPrefix (by omega) (prefix_refl (putVLQ scriptVersion.toNat))
    rw [← append_nil (putVLQ scriptVersion.toNat)] at hread
    exact Or.inr ⟨_, _, _, decodeVersionedScript_of_read hread, le_rfl, Nat.le_succ _⟩
  · have hsize := hputs.decodeCompressedScriptSize_cut hbs.length_lt hrest hnil
    rw [decodeVersionedScript, deserializeVLQ_putVLQ_append (by omega)]
    dsimp only
    rw [drop_putVLQ_append]
    rcases hsize with hneg | hmore | ⟨h0, hle, hge⟩
    · exact Or.inl (reported_rejectIf hneg (by simp) _)
    · left
      rw [rejectIf_bind (by omega)]
      exact reported_rejectIf hmore (by simp) _
    · right
      rw [rejectIf_bind (by omega), rejectIf_bind (by omega)]
      refine ⟨_, _, _, rfl, ?_, ?_⟩
      · rw [length_append, length_putVLQ]
        omega
      · rw [length_append, length_putVLQ]
        omega

section Cut

variable {keys : PubKeys} {stxo : SpentTxOut} {cut : List UInt8}

/-- The data of a fully spent ticket without outputs, which alone are missed wherever the bytes are
cut off. -/
def SpentTxOut.Guards (stxo : SpentTxOut) : Prop :=
  stxo.txFullySpent = true ∧ stxo.txType = .sStx ∧ stxo.stakeExtra = [0]

/-- Bytes that were cut off are reported, or, unless they guard against it, read with a result like
`P`. -/
def SpentTxOut.ReadsCut {α : Type} (stxo : SpentTxOut) (r : Except DecodeErr α) (P : α → Prop) :
    Prop :=
  Reported r ∨ ¬ stxo.Guards ∧ ∃ a, r = .ok a ∧ P a

theorem decodeContaining_of_read (stxo : SpentTxOut) (hread : (deserializeVLQ cut).2 = cut.length) :
    stxo.ReadsCut (decodeContaining stxo.txType cut) fun r => r.2.2 = cut.length := by
  rw [decodeContaining]
  dsimp only
  rw [hread, drop_length]
  split_ifs with hticket
  · have hzero : readDeserializeSizeOfMinimalOutputs [] = .ok 0 := rfl
    rw [hzero, ok_bind]
    exact Or.inl (reported_rejectIf (Or.inl rfl) (by simp) _)
  · exact Or.inr ⟨fun hguards => hticket hguards.2.1, _, rfl, rfl⟩

theorem deserializeVLQ_snd_of_length_le_one (h : cut.length ≤ 1) :
    (deserializeVLQ cut).2 = cut.length := by
  match cut, h with
  | [], _ => rfl
  | [b], _ =>
    rw [deserializeVLQ, readVlq, readVlqFrom]
    split_ifs <;> rfl

/-- The scripts that the data of a fully spent ticket can be cut off in are at their end. -/
def SpentTxOut.EndsInScript (stxo : SpentTxOut) : Prop :=
  stxo.txFullySpent = true → stxo.txType = .sStx →
    ∃ outs, Minimal stxo.stakeExtra outs ∧ ∀ out ∈ outs.dropLast, out.pkScript = []

/-- The data of the transaction, cut off. -/
theorem decodeContaining_cut (hscripts : stxo.EndsInScript) (hspent : stxo.txFullySpent = true)
    (hcut : Cut cut (putContaining stxo)) :
    stxo.ReadsCut (decodeContaining stxo.txType cut) fun r => r.2.2 = cut.length := by
  have hversion := stxo.txVersion.toNat_lt
  rw [putContaining, if_pos hspent] at hcut
  rcases hcut.append_cases with hcut | ⟨rest, rfl, hrest⟩
  · exact decodeContaining_of_read stxo (deserializeVLQ_snd_of_isPrefix (by omega) hcut.isPrefix)
  rcases eq_or_ne rest [] with rfl | hnil
  · apply decodeContaining_of_read
    rw [append_nil, deserializeVLQ_putVLQ (by omega), length_putVLQ]
  split_ifs at hrest with hticket
  · obtain ⟨outs, hminimal, hlast⟩ := hscripts hspent hticket
    obtain ⟨sz, hsz, hle⟩ := hminimal.exists_readDeserializeSizeOfMinimalOutputs_cut hlast hrest
    rw [decodeContaining, deserializeVLQ_putVLQ_append (by omega)]
    dsimp only
    rw [if_pos hticket, drop_putVLQ_append, hsz, ok_bind]
    by_cases hbad : sz = 0 ∨ (rest.length : ℤ) < sz
    · exact Or.inl (reported_rejectIf hbad (by simp) _)
    · right
      constructor
      · rintro ⟨-, -, hextra⟩
        rw [hextra] at hrest
        exact hnil (length_eq_zero_iff.1 (Nat.lt_one_iff.1 hrest.length_lt))
      · obtain rfl : sz = rest.length := by omega
        rw [rejectIf_bind hbad, rejectIf_bind (by omega), Int.toNat_natCast, length_append,
          length_putVLQ]
        exact ⟨_, rfl, rfl⟩
  · exact absurd hrest not_cut_nil

theorem decodeFlagged_of_ok {out : DecodedTxOut} (hout : decodeCompressedTxOut cut false = .ok out)
    (hlength : ¬ stxo.txFullySpent = true → cut.length ≤ out.bytesRead + 1) (amount : ℤ)
    (height index : ℕ) (hcontaining : stxo.txFullySpent = true →
      stxo.ReadsCut (decodeContaining stxo.txType (cut.drop out.bytesRead))
      fun r => r.2.2 = (cut.drop out.bytesRead).length) :
    stxo.ReadsCut (decodeFlagged stxo.flags cut amount height index) fun r =>
      cut.length ≤ r.2 + 1 := by
  rw [decodeFlagged, hout, withText_ok, ok_bind, decodeFlagsFullySpent_flags]
  by_cases hspent : stxo.txFullySpent = true
  · rw [if_pos hspent, decodeFlags_flags]
    dsimp only
    rcases hcontaining hspent with hreported | ⟨hguards, ⟨v, extra, n⟩, hok, rfl⟩
    · exact Or.inl (hreported.bind _)
    · rw [hok, ok_bind]
      refine Or.inr ⟨hguards, _, rfl, ?_⟩
      show cut.length ≤ out.bytesRead + (cut.drop out.bytesRead).length + 1
      rw [length_drop]
      omega
  · rw [if_neg hspent]
    exact Or.inr ⟨fun hguards => hspent hguards.1, _, rfl, hlength hspent⟩

theorem decodeCompressedTxOut_false (serialized : List UInt8) :
    decodeCompressedTxOut serialized false
      = decodeVersionedScript serialized >>= fun r => pure ⟨0, r.1, r.2.1, r.2.2⟩ := by
  rw [decodeCompressedTxOut, if_neg (by simp), pure_bind]
  simp only [drop_zero, Nat.zero_add]

/-- What follows the flags, cut off. -/
theorem decodeFlagged_cut (h : stxo.WellFormed keys) (hscripts : stxo.EndsInScript) (amount : ℤ)
    (height index : ℕ) (hcut : Cut cut (putFlagged keys stxo)) :
    stxo.ReadsCut (decodeFlagged stxo.flags cut amount height index) fun r =>
      cut.length ≤ r.2 + 1 := by
  have hput : putCompressedTxOut keys (uint64 0) stxo.scriptVersion stxo.pkScript
      stxo.compressed false = putVLQ stxo.scriptVersion.toNat ++
        storedScript keys stxo.scriptVersion stxo.pkScript stxo.compressed := rfl
  rcases hcut.append_cases with hcut | ⟨rest, rfl, hrest⟩
  · -- the bytes end in the script or its version
    rw [hput] at hcut
    rcases decodeVersionedScript_cut h.script stxo.scriptVersion hcut with
      hreported | ⟨v, script, n, hok, hle, hlength⟩
    · left
      rw [decodeFlagged, decodeCompressedTxOut_false]
      exact ((hreported.bind _).withText _).bind _
    · have hout : decodeCompressedTxOut cut false = .ok ⟨0, v, script, n⟩ := by
        rw [decodeCompressedTxOut_false, hok]
        rfl
      refine decodeFlagged_of_ok hout (fun _ => hlength) amount height index fun _ => ?_
      apply decodeContaining_of_read
      apply deserializeVLQ_snd_of_length_le_one
      rw [length_drop]
      show cut.length - n ≤ 1
      omega
  · have hout := decodeCompressedTxOut_append le_rfl (by norm_num) h.script false rest
    refine decodeFlagged_of_ok hout (fun hspent => ?_) amount height index fun hspent => ?_
    · rw [putContaining, if_neg hspent] at hrest
      exact absurd hrest not_cut_nil
    · dsimp only
      rw [drop_left]
      exact decodeContaining_cut hscripts hspent hrest

/-- An entry of the journal, cut off. -/
theorem decodeSpentTxOut_cut (h : stxo.WellFormed keys) (hscripts : stxo.EndsInScript) (amount : ℤ)
    (height index : ℕ) (hcut : Cut cut (putSpentTxOut keys stxo)) :
    stxo.ReadsCut (decodeSpentTxOut cut amount height index) fun r => cut.length ≤ r.2 + 1 := by
  rw [putSpentTxOut_eq_cons] at hcut
  rcases cut with _ | ⟨flags, cut⟩
  · exact Or.inl (reported_rejectIf rfl (by simp) _)
  obtain ⟨rfl, -⟩ := cons_prefix_cons.1 hcut.isPrefix
  rcases eq_or_ne cut [] with rfl | hnil
  · left
    have hlt : stxo.flags < 0x80 := (decodeFlags_encodeFlags _ _ _ _).1
    rw [decodeSpentTxOut, rejectIf_bind (cons_ne_nil _ _), deserializeVLQ_tag hlt]
    exact reported_rejectIf le_rfl (by simp) _
  rw [decodeSpentTxOut_cons hnil]
  rcases decodeFlagged_cut h hscripts amount height index (cut_cons_iff.1 hcut) with
    hreported | ⟨hguards, ⟨stxo', n⟩, hok, hlength⟩
  · exact Or.inl (hreported.bind _)
  · refine Or.inr ⟨hguards, (stxo', 1 + n), by rw [hok]; rfl, ?_⟩
    rw [length_cons]
    omega

end Cut

/-! ## Whole entries -/

/-- What an input says about the output that it spends. -/
def Agrees (stxo : SpentTxOut) (txIn : TxIn) : Prop :=
  stxo.amount = txIn.valueIn ∧ stxo.height = txIn.blockHeight ∧ stxo.index = txIn.blockIndex

theorem length_txIn_of_determineTxType {s : Txscript} {tx : MsgTx}
    (h : determineTxType s tx = .sSGen) :
    tx.txIn.length = 2 := by
  unfold determineTxType at h
  split_ifs at h with hsstx hssgen
  simp only [Stake.isSSGen, NumInputsPerSSGen, Bool.and_eq_true, beq_iff_eq] at hssgen
  exact hssgen.1.1.1.1.1

/-- The number of entries is the number of inputs that are journalled. -/
theorem numStxos_eq (s : Txscript) (txns : List MsgTx) :
    numStxos s txns = (journalInputs s txns).length := by
  rw [numStxos, journalInputs, length_flatMap]
  congr 1
  refine map_congr_left fun tx _ => ?_
  rw [apply_ite length]
  split_ifs with hvote
  · rw [length_drop, length_txIn_of_determineTxType hvote]
  · rfl

section Journal

variable {keys : PubKeys} {stxos : List SpentTxOut} (h : ∀ stxo ∈ stxos, stxo.WellFormed keys)
  {cut : List UInt8} {inputs : List TxIn}

theorem serializeSpendJournalEntry_eq (keys : PubKeys) (stxos : List SpentTxOut) :
    serializeSpendJournalEntry keys stxos = .ok (stxos.reverse.flatMap (putSpentTxOut keys)) := by
  have hwrite : writeSpentTxOut keys = fun stxo => pure (putSpentTxOut keys stxo) := by
    funext stxo
    rw [writeSpentTxOut, rejectIf_bind (not_not.2 (length_putSpentTxOut keys stxo))]
  have hlength : (stxos.reverse.flatMap (putSpentTxOut keys)).length
      = (stxos.map (spentTxOutSerializeSize keys)).sum := by
    simp only [length_flatMap, length_putSpentTxOut, map_reverse, sum_reverse]
  rw [serializeSpendJournalEntry, hwrite, mapM_pure, pure_bind, ← flatMap_def, filled, hlength,
    if_neg (lt_irrefl _), Nat.sub_self, replicate_zero, append_nil]

/-- The loop reads the entries back, the last one first. -/
theorem readStxos_append (h : ∀ stxo ∈ stxos, stxo.WellFormed keys)
    (hagrees : Forall₂ Agrees stxos inputs) (more : List TxIn) (slots : ℕ) (rest : List UInt8)
    (acc : List SpentTxOut) :
    readStxos (inputs ++ more) (stxos.length + slots)
    (stxos.flatMap (putSpentTxOut keys) ++ rest) acc
      = readStxos more slots rest ((stxos.map (SpentTxOut.stored keys)).reverse ++ acc) := by
  induction hagrees generalizing acc with
  | nil => simp
  | @cons stxo txIn stxos inputs hfirst hrest ih =>
    obtain ⟨hwf, h⟩ := forall_mem_cons.1 h
    obtain ⟨hamount, hheight, hindex⟩ := hfirst
    rw [cons_append, length_cons, Nat.succ_add, flatMap_cons, append_assoc, readStxos,
      ← hamount, ← hheight, ← hindex, decodeSpentTxOut_append hwf, withText_ok, ok_bind]
    dsimp only
    rw [drop_left, ih h, map_cons, reverse_cons, append_assoc]
    rfl

theorem reported_decodeSpentTxOut_of_length_le_one (hlength : cut.length ≤ 1) (amount : ℤ)
    (height index : ℕ) : Reported (decodeSpentTxOut cut amount height index) := by
  rw [decodeSpentTxOut]
  by_cases hnil : cut = []
  · exact reported_rejectIf hnil (by simp) _
  · rw [rejectIf_bind hnil]
    exact reported_rejectIf (deserializeVLQ_snd_of_length_le_one hlength).ge (by simp) _

/-- A journal that is cut off is reported. -/
theorem reported_readStxos (h : ∀ stxo ∈ stxos, stxo.WellFormed keys)
    (hscripts : ∀ stxo ∈ stxos, stxo.EndsInScript)
    (hlast : ∀ stxo, stxos.getLast? = some stxo → stxo.Guards)
    (hagrees : Forall₂ Agrees stxos inputs) (hcut : Cut cut (stxos.flatMap (putSpentTxOut keys)))
    (acc : List SpentTxOut) : Reported (readStxos inputs stxos.length cut acc) := by
  induction hagrees generalizing cut acc with
  | nil => exact absurd hcut not_cut_nil
  | @cons stxo txIn stxos inputs hfirst hrest ih =>
    obtain ⟨hwf, h⟩ := forall_mem_cons.1 h
    obtain ⟨hscript, hscripts⟩ := forall_mem_cons.1 hscripts
    rw [flatMap_cons] at hcut
    rw [length_cons, readStxos]
    rcases hcut.append_cases with hcut | ⟨rest, rfl, hrestcut⟩
    · rcases decodeSpentTxOut_cut hwf hscript txIn.valueIn txIn.blockHeight
        txIn.blockIndex hcut with hreported | ⟨hguards, ⟨stxo', n⟩, hok, hlength⟩
      · exact (hreported.withText _).bind _
      · -- another output is read from the byte that may be left
        rw [hok, withText_ok, ok_bind]
        dsimp only
        cases hrest with
        | nil => exact absurd (hlast stxo rfl) hguards
        | @cons _ txIn2 _ _ _ _ =>
          rw [length_cons, readStxos]
          have hshort : (cut.drop n).length ≤ 1 := by
            rw [length_drop]
            omega
          exact ((reported_decodeSpentTxOut_of_length_le_one hshort _ _ _).withText _).bind _
    · obtain ⟨hamount, hheight, hindex⟩ := hfirst
      rw [← hamount, ← hheight, ← hindex, decodeSpentTxOut_append hwf, withText_ok, ok_bind]
      dsimp only
      rw [drop_left]
      refine ih h hscripts (fun stxo2 hstxo2 => hlast stxo2 ?_) hrestcut _
      rw [getLast?_cons, hstxo2]
      rfl

end Journal

section Cuts

variable {keys : PubKeys} {stxo : SpentTxOut} (h : stxo.WellFormed keys)

include h in
/-- The bytes of a fully spent ticket can be cut off in its outputs, wherever these can. The reader
then does what it does on what is left of the outputs. -/
theorem exists_cut_of_ticket (hspent : stxo.txFullySpent = true) (hticket : stxo.txType = .sStx)
    {cut : List UInt8} (hcut : Cut cut stxo.stakeExtra) :
    ∃ bytes, Cut bytes (putSpentTxOut keys stxo) ∧ bytes ≠ [] ∧ ∀ amount height index,
        (readDeserializeSizeOfMinimalOutputs cut = .error .panic →
          decodeSpentTxOut bytes amount height index = .error .panic) ∧
        (readDeserializeSizeOfMinimalOutputs cut = .ok (cut.length : ℤ) → cut ≠ [] →
          ∃ r, decodeSpentTxOut bytes amount height index = .ok r) := by
  have hversion := stxo.txVersion.toNat_lt
  have hout :=
    decodeCompressedTxOut_append le_rfl (by norm_num) h.script false
      (putVLQ stxo.txVersion.toNat ++ cut)
  rw [putSpentTxOut_eq_cons, putFlagged, putContaining, if_pos hspent, if_pos hticket]
  refine ⟨_, cut_cons_iff.2 (cut_append_left_iff.2 (cut_append_left_iff.2 hcut)), cons_ne_nil _ _,
    fun amount height index => ?_⟩
  rw [decodeSpentTxOut_cons
    (append_ne_nil_of_left_ne_nil (putCompressedTxOut_ne_nil _ _ _ _ _ _) _),
    decodeFlagged, hout, withText_ok, ok_bind, decodeFlagsFullySpent_flags, if_pos hspent,
    decodeFlags_flags]
  dsimp only
  rw [drop_left, decodeContaining, deserializeVLQ_putVLQ_append (by omega)]
  dsimp only
  rw [if_pos hticket, drop_putVLQ_append]
  constructor
  · intro hpanic
    rw [hpanic]
    rfl
  · intro hsize hnil
    have hpos := length_pos_of_ne_nil hnil
    rw [hsize, ok_bind, rejectIf_bind (by omega), rejectIf_bind (by omega)]
    exact ⟨_, rfl⟩

include h in
/-- Without the guard there is a cut that is accepted. -/
theorem exists_cut_accepted (hguards : ¬ stxo.Guards) :
    ∃ cut, Cut cut (putSpentTxOut keys stxo) ∧ cut ≠ [] ∧
      ∀ amount height index, ∃ r, decodeSpentTxOut cut amount height index = .ok r := by
  by_cases hticket : stxo.txFullySpent = true ∧ stxo.txType = .sStx
  · -- after the number of the outputs of the ticket
    obtain ⟨hspent, hticket⟩ := hticket
    obtain ⟨outs, hminimal⟩ := h.extra hspent hticket
    have houts : outs.flatMap putMinimalOutput ≠ [] := by
      intro hnil
      have hle := length_le_length_flatMap outs
      rw [hnil, length_nil, Nat.le_zero, length_eq_zero_iff] at hle
      exact hguards ⟨hspent, hticket, by rw [hminimal.eq, hle]; decide +kernel⟩
    have hsize : readDeserializeSizeOfMinimalOutputs (putVLQ outs.length) =
        .ok ((putVLQ outs.length).length : ℤ) := by
      have hread := hminimal.readDeserializeSizeOfMinimalOutputs_eq []
      have hlt := hminimal.bytes_lt
      rwa [append_nil, skipMinimalOutputs_end (by omega)] at hread
    have hcut : Cut (putVLQ outs.length) stxo.stakeExtra := ⟨⟨_, hminimal.eq.symm⟩, fun heq =>
      houts (self_eq_append_right.1 (heq.trans hminimal.eq))⟩
    have hnil := append_nil (putVLQ outs.length) ▸ putVLQ_append_ne_nil outs.length []
    obtain ⟨bytes, hbytes, hbnil, hread⟩ := exists_cut_of_ticket h hspent hticket hcut
    exact ⟨bytes, hbytes, hbnil, fun amount height index =>
      (hread amount height index).2 hsize hnil⟩
  · -- after the version of the script
    have hversion := stxo.scriptVersion.toNat_lt
    have hput : putFlagged keys stxo = putVLQ stxo.scriptVersion.toNat ++
        (storedScript keys stxo.scriptVersion stxo.pkScript stxo.compressed ++
          putContaining stxo) :=
      append_assoc (putVLQ stxo.scriptVersion.toNat) _ _
    have hcut : Cut (putVLQ stxo.scriptVersion.toNat) (putFlagged keys stxo) :=
      ⟨⟨_, hput.symm⟩, fun heq =>
        h.script.ne_nil (append_eq_nil_iff.1 (self_eq_append_right.1 (heq.trans hput))).1⟩
    have hread :=
      deserializeVLQ_snd_of_isPrefix (by omega) (prefix_refl (putVLQ stxo.scriptVersion.toNat))
    have hne : putVLQ stxo.scriptVersion.toNat ≠ [] :=
      append_nil (putVLQ stxo.scriptVersion.toNat) ▸ putVLQ_append_ne_nil _ _
    rw [putSpentTxOut_eq_cons]
    refine ⟨_, cut_cons_iff.2 hcut, cons_ne_nil _ _, fun amount height index => ?_⟩
    have hout : decodeCompressedTxOut (putVLQ stxo.scriptVersion.toNat) false = .ok ⟨0,
        UInt16.ofNat (deserializeVLQ (putVLQ stxo.scriptVersion.toNat)).1, [],
        (putVLQ stxo.scriptVersion.toNat).length⟩ := by
      rw [decodeCompressedTxOut_false, decodeVersionedScript_of_read hread]
      rfl
    rw [decodeSpentTxOut_cons hne, decodeFlagged, hout, withText_ok, ok_bind,
      decodeFlagsFullySpent_flags]
    by_cases hspent : stxo.txFullySpent = true
    · have hcontaining : decodeContaining stxo.txType [] = .ok (0, [], 0) := by
        rw [decodeContaining]
        dsimp only
        rw [if_neg fun ht => hticket ⟨hspent, ht⟩]
        rfl
      rw [if_pos hspent, decodeFlags_flags]
      dsimp only
      rw [drop_length, hcontaining, ok_bind, pure_bind]
      exact ⟨_, rfl⟩
    · rw [if_neg hspent, pure_bind]
      exact ⟨_, rfl⟩

include h in
/-- The data of a ticket can be cut off where the reader panics, in the script of an output that
others follow. -/
theorem exists_cut_panics (hscripts : ¬ stxo.EndsInScript) :
    ∃ cut, Cut cut (putSpentTxOut keys stxo) ∧ cut ≠ [] ∧
      ∀ amount height index, decodeSpentTxOut cut amount height index = .error .panic := by
  simp only [SpentTxOut.EndsInScript, Classical.not_imp, not_exists, not_and,
    not_forall] at hscripts
  obtain ⟨hspent, hticket, hscripts⟩ := hscripts
  obtain ⟨outs, hminimal⟩ := h.extra hspent hticket
  obtain ⟨out, hout, hne⟩ := hscripts outs hminimal
  -- the outputs before the one that is cut off, and those after it
  obtain ⟨before, after, hafter, rfl⟩ :
    ∃ before after, after ≠ [] ∧ outs = before ++ out :: after := by
    obtain ⟨before, mid, hmid⟩ := append_of_mem hout
    have houts : outs ≠ [] := fun hnil => by simp [hnil] at hout
    refine ⟨before, mid ++ [outs.getLast houts], by simp, ?_⟩
    conv_lhs => rw [← dropLast_append_getLast houts, hmid]
    simp
  obtain ⟨cut, hcut, hpanic⟩ := hminimal.exists_cut_panics hafter hne
  obtain ⟨bytes, hbytes, hnil, hread⟩ := exists_cut_of_ticket h hspent hticket hcut
  exact ⟨bytes, hbytes, hnil, fun amount height index => (hread amount height index).1 hpanic⟩

end Cuts

/-- What the journal is to do for the outputs that transactions spend: they come back, and an entry
that is too short for the transactions is reported. -/
structure JournalSurvives (keys : PubKeys) (s : Txscript) (txns : List MsgTx)
    (stxos : List SpentTxOut) : Prop where
  restored : ∃ serialized, serializeSpendJournalEntry keys stxos = .ok serialized ∧
    deserializeSpendJournalEntry s serialized txns = .ok (stxos.map (SpentTxOut.stored keys))
  reported : ∀ serialized short, serializeSpendJournalEntry keys stxos = .ok serialized →
    short <+: serialized →
    short ≠ serialized → Reported (deserializeSpendJournalEntry s short txns)

/-- Where an entry that is cut off is always reported: the output that is read last is a fully spent
ticket without outputs, and no fully spent ticket has a script that other outputs follow. -/
structure CutsNoticed (stxos : List SpentTxOut) : Prop where
  first : ∀ stxo, stxos.head? = some stxo → stxo.Guards
  scripts : ∀ stxo ∈ stxos, stxo.EndsInScript

section Whole

variable {keys : PubKeys} {s : Txscript} {txns : List MsgTx} {stxos : List SpentTxOut}
  (h : ∀ stxo ∈ stxos, stxo.WellFormed keys) (hagrees : Forall₂ Agrees stxos (journalInputs s txns))

include hagrees

theorem deserializeSpendJournalEntry_of_ne_nil {serialized : List UInt8} (hne : serialized ≠ []) :
    deserializeSpendJournalEntry s serialized txns
      = readStxos (journalInputs s txns).reverse stxos.reverse.length serialized [] := by
  rw [deserializeSpendJournalEntry, if_neg hne, numStxos_eq, ← hagrees.length_eq, length_reverse]

include h

theorem exists_readStxos_cut {l1 l2 : List SpentTxOut} {stxo : SpentTxOut}
    (hstxos : stxos = l1 ++ stxo :: l2)
    {cut : List UInt8} (hcut : Cut cut (putSpentTxOut keys stxo)) (hnil : cut ≠ []) :
    ∃ short txIn inputs acc, Cut short (stxos.reverse.flatMap (putSpentTxOut keys)) ∧
    inputs.length = l1.length ∧
      deserializeSpendJournalEntry s short txns =
        readStxos (txIn :: inputs) (l1.length + 1) cut acc := by
  have hreverse : stxos.reverse = l2.reverse ++ (stxo :: l1.reverse) := by simp [hstxos]
  have hinputs := rel_reverse hagrees
  rw [hreverse] at hinputs
  -- the inputs of the elements that are read before, and the others
  have hfront := forall₂_take l2.reverse.length hinputs
  have hback := forall₂_drop l2.reverse.length hinputs
  rw [take_left] at hfront
  rw [drop_left] at hback
  obtain ⟨txIn, inputs, -, hrest, hdrop⟩ := forall₂_cons_left_iff.1 hback
  have hshort : l2.reverse.flatMap (putSpentTxOut keys) ++ cut ≠ [] :=
    append_ne_nil_of_right_ne_nil _ hnil
  have hwf : ∀ o ∈ l2.reverse, o.WellFormed keys := by
    intro o ho
    apply h
    rw [hstxos]
    exact mem_append_right _ (mem_cons_of_mem _ (mem_reverse.1 ho))
  have hread := readStxos_append hwf hfront (txIn :: inputs) (l1.length + 1) cut []
  have hslots : l2.reverse.length + (l1.length + 1) = stxos.reverse.length := by simp [hreverse]
  rw [← hdrop, take_append_drop, hdrop, hslots,
    ← deserializeSpendJournalEntry_of_ne_nil hagrees hshort] at hread
  refine ⟨_, txIn, inputs, _, ?_, ?_, hread⟩
  · rw [hreverse, flatMap_append, flatMap_cons, cut_append_left_iff]
    exact hcut.append_right
  · rw [← hrest.length_eq, length_reverse]

/-- A journal comes back with its scripts as they are stored. -/
theorem exists_restored : ∃ serialized, serializeSpendJournalEntry keys stxos = .ok serialized ∧
    deserializeSpendJournalEntry s serialized txns = .ok (stxos.map (SpentTxOut.stored keys)) := by
  refine ⟨_, serializeSpendJournalEntry_eq keys stxos, ?_⟩
  have hread :=
    readStxos_append (fun o ho => h o (mem_reverse.1 ho)) (rel_reverse hagrees) [] 0 [] []
  rw [append_nil, append_nil, append_nil, Nat.add_zero, readStxos, map_reverse,
    reverse_reverse, replicate_zero, nil_append] at hread
  rcases eq_or_ne stxos [] with rfl | hne
  · rw [reverse_nil, flatMap_nil, deserializeSpendJournalEntry, if_pos rfl, numStxos_eq,
      ← hagrees.length_eq]
    rfl
  · have hbytes : stxos.reverse.flatMap (putSpentTxOut keys) ≠ [] := by
      obtain ⟨stxo, l, hl⟩ := exists_cons_of_ne_nil (reverse_ne_nil_iff.2 hne)
      rw [hl, flatMap_cons, putSpentTxOut_eq_cons]
      exact cons_ne_nil _ _
    rw [deserializeSpendJournalEntry_of_ne_nil hagrees hbytes, hread]

/-- The journal of the outputs that transactions spend comes back in any case, and an entry of it
that is cut off is always reported exactly where the condition on its elements holds. -/
theorem journalSurvives_iff_cutsNoticed :
    JournalSurvives keys s txns stxos ↔ CutsNoticed stxos := by
  have hserialize := serializeSpendJournalEntry_eq keys stxos
  constructor
  · intro hsurvives
    constructor
    · intro stxo hfirst
      obtain ⟨l, hl⟩ := head?_eq_some_iff.1 hfirst
      by_contra hguards
      have hwf := h stxo (by rw [hl]; exact mem_cons_self)
      obtain ⟨cut, hcut, hnil, haccepted⟩ := exists_cut_accepted hwf hguards
      obtain ⟨short, txIn, inputs, acc, hshort, hlength, hread⟩ :=
        exists_readStxos_cut h hagrees (show stxos = [] ++ stxo :: l from hl) hcut hnil
      obtain ⟨e, -, herror⟩ := hsurvives.reported _ short hserialize hshort.isPrefix hshort.ne
      -- the element that is cut off is the last one that is read
      obtain ⟨r, hr⟩ := haccepted txIn.valueIn txIn.blockHeight txIn.blockIndex
      obtain rfl := length_eq_zero_iff.1 hlength
      rw [hread, readStxos, hr, withText_ok, ok_bind] at herror
      exact absurd herror (by simp [readStxos])
    · intro stxo hstxo
      by_contra hscripts
      obtain ⟨l1, l2, hl⟩ := append_of_mem hstxo
      obtain ⟨cut, hcut, hnil, hpanics⟩ := exists_cut_panics (h stxo hstxo) hscripts
      obtain ⟨short, txIn, inputs, acc, hshort, -, hread⟩ :=
        exists_readStxos_cut h hagrees hl hcut hnil
      obtain ⟨e, he, herror⟩ := hsurvives.reported _ short hserialize hshort.isPrefix hshort.ne
      rw [hread, readStxos, hpanics] at herror
      exact he (Except.error.inj herror).symm
  · intro hnoticed
    refine ⟨exists_restored h hagrees, fun serialized short hserialized hshort hne => ?_⟩
    obtain rfl := Except.ok.inj (hserialize.symm.trans hserialized)
    rcases eq_or_ne short [] with rfl | hnil
    · rw [deserializeSpendJournalEntry, if_pos rfl]
      refine reported_rejectIf ?_ (by simp) _
      rw [numStxos_eq, ← hagrees.length_eq]
      intro hzero
      rw [length_eq_zero_iff.1 hzero] at hne
      exact hne rfl
    · rw [deserializeSpendJournalEntry_of_ne_nil hagrees hnil]
      refine reported_readStxos (fun o ho => h o (mem_reverse.1 ho))
        (fun o ho => hnoticed.scripts o (mem_reverse.1 ho)) (fun o ho => hnoticed.first o ?_)
        (rel_reverse hagrees) ⟨hshort, hne⟩ []
      rwa [getLast?_reverse] at ho

end Whole

/-- An output of the block at height 300 that was spent, of a transaction that has others. -/
def sampleSpent : SpentTxOut :=
  { SpentTxOut.zero with pkScript := [OP_1], amount := 5000, height := 300, index := 2 }

/-- The last output of a ticket whose outputs were not kept. -/
def sampleSpentTicket (stakeExtra : List UInt8) : SpentTxOut :=
  { sampleSpent with
    stakeExtra := stakeExtra, txVersion := 1, txType := .sStx, txFullySpent := true }

/-- A transaction that spends outputs of the block at height 300. -/
def sampleSpender (inputs : ℕ) : MsgTx :=
  plainTx 7 ((range inputs).map fun i => spend i 0 0 5000 300 2) [payTo 1 4000]

/-- The sample script is compressed. -/
theorem isCompressed_sampleSpent :
    IsCompressed sampleKeys (storedScript sampleKeys 0 [OP_1] false) :=
  ⟨⟨[OP_1], puts_putCompressedScript sampleKeys 0 [OP_1]⟩, by decide +kernel⟩

/-- A journal with a ticket. -/
theorem journalSurvives_sampleSpent :
    (∀ stxo ∈ [sampleSpentTicket [0], sampleSpent], stxo.WellFormed sampleKeys) ∧
      Forall₂ Agrees [sampleSpentTicket [0], sampleSpent]
      (journalInputs sampleScript [sampleSpender 2]) ∧
      CutsNoticed [sampleSpentTicket [0], sampleSpent] ∧
      JournalSurvives sampleKeys sampleScript [sampleSpender 2]
      [sampleSpentTicket [0], sampleSpent] := by
  have hminimal : Minimal [0] [] := ⟨by decide +kernel, by simp, by decide⟩
  have hwf : ∀ stxo ∈ [sampleSpentTicket [0], sampleSpent], stxo.WellFormed sampleKeys := by
    rintro stxo hstxo
    simp only [mem_cons, not_mem_nil, or_false] at hstxo
    rcases hstxo with rfl | rfl
    · exact ⟨isCompressed_sampleSpent, fun _ _ => ⟨[], hminimal⟩⟩
    · exact ⟨isCompressed_sampleSpent, fun hspent => absurd hspent (by decide)⟩
  have hinputs : journalInputs sampleScript [sampleSpender 2] =
      [spend 0 0 0 5000 300 2, spend 1 0 0 5000 300 2] := by
    decide +kernel
  have hagrees : Forall₂ Agrees [sampleSpentTicket [0], sampleSpent]
      (journalInputs sampleScript [sampleSpender 2]) := by
    rw [hinputs]
    exact .cons ⟨rfl, rfl, rfl⟩ (.cons ⟨rfl, rfl, rfl⟩ .nil)
  have hnoticed : CutsNoticed [sampleSpentTicket [0], sampleSpent] := by
    constructor
    · intro stxo hfirst
      obtain rfl := Option.some.inj hfirst
      exact ⟨rfl, rfl, rfl⟩
    · intro stxo hstxo
      simp only [mem_cons, not_mem_nil, or_false] at hstxo
      rcases hstxo with rfl | rfl
      · exact fun _ _ => ⟨[], hminimal, by simp⟩
      · exact fun hspent => absurd hspent (by decide)
  exact ⟨hwf, hagrees, hnoticed, (journalSurvives_iff_cutsNoticed hwf hagrees).2 hnoticed⟩

/-- Two bytes of an entry are taken for the whole of it, with an empty script; and an entry that
ends in the first script of a ticket with two outputs is read out of range. -/
theorem exists_journal_cut_not_reported :
    (∃ serialized short stxos, serializeSpendJournalEntry sampleKeys [sampleSpent] =
      .ok serialized ∧
      short <+: serialized ∧ short ≠ serialized ∧
      deserializeSpendJournalEntry sampleScript short [sampleSpender 1] = .ok stxos ∧
      stxos ≠ [sampleSpent.stored sampleKeys]) ∧
    ∃ serialized short, serializeSpendJournalEntry sampleKeys
        [sampleSpentTicket (putTxToMinimalOutputs [payTo 1 5000, payTo 2 0])] = .ok serialized ∧
      short <+: serialized ∧ short ≠ serialized ∧
      deserializeSpendJournalEntry sampleScript short [sampleSpender 1] = .error .panic := by
  constructor
  · exact ⟨[0, 0, 65, 81], [0, 0],
      [{ sampleSpent with pkScript := [], compressed := true }], by decide +kernel⟩
  · let serialized :=
      putSpentTxOut sampleKeys (sampleSpentTicket (putTxToMinimalOutputs [payTo 1 5000, payTo 2 0]))
    exact ⟨serialized, serialized.take 12, by decide +kernel⟩

end Hcashd.Blockchain.Stored
