import Hcashd.Blockchain.CompressTxOut

/-!
# Stored entries of the set of unspent outputs

`serializeUtxoEntry` and `deserializeUtxoEntry` of `chainio.go`. Outputs 0 and 1 of an entry have a
bit of the header code each, and the others one bit of a bitmap, whose length is the rest of the
header code. The length is computed from the highest index of an output, in 32 bits: for the last
six indexes the sum wraps around, the bitmap is empty, and the outputs from 2 on are lost. Below
them the indexes that are read are those of the unspent outputs, in their order
(`outputIndexes_eq`).
-/

namespace Hcashd.Blockchain.Stored

open Lib Hcashd.Stake Hcashd.Blockchain List UInt32

/-! ## Entries -/

/-- `utxoOutput`, with the fixed widths of the source. -/
structure UtxoOutput where
  pkScript : List UInt8
  amount : ℤ
  scriptVersion : UInt16
  compressed : Bool
  spent : Bool
  deriving DecidableEq, Repr

/-- `UtxoEntry`, with the fixed widths of the source. -/
structure UtxoEntry where
  sparseOutputs : Std.ExtTreeMap UInt32 UtxoOutput
  stakeExtra : List UInt8
  txVersion : UInt16
  height : UInt32
  index : UInt32
  txType : TxType
  isCoinBase : Bool
  hasExpiry : Bool

namespace UtxoEntry

variable (entry : UtxoEntry)

/-- `IsOutputSpent`: an output that is not there counts as spent. -/
def isOutputSpent (outputIndex : UInt32) : Bool :=
  match entry.sparseOutputs[outputIndex]? with
  | none => true
  | some output => output.spent

/-- `IsFullySpent`: every output that is there is spent. -/
def isFullySpent : Bool := entry.sparseOutputs.toList.all fun output => output.2.spent

/-- The unspent outputs, by their indexes. -/
def unspentOutputs : List (UInt32 × UtxoOutput) :=
  entry.sparseOutputs.toList.filter fun output => !output.2.spent

end UtxoEntry

/-! ## Writing -/

/-- `utxoEntryHeaderCode`: the first two outputs, and the length of the bitmap. -/
def utxoEntryHeaderCode (entry : UtxoEntry) (highestOutputIndex : UInt32) :
    Except DecodeErr (ℕ × ℕ) := do
  let numBitmapBytes := ((highestOutputIndex + 6) / 8).toNat
  let output0Unspent := !entry.isOutputSpent 0
  let output1Unspent := !entry.isOutputSpent 1
  rejectIf (!output0Unspent ∧ !output1Unspent ∧ numBitmapBytes = 0)
    (.assertion "attempt to serialize utxo header for fully spent transaction")
  let numBitmapBytesAdjustment := if !output0Unspent && !output1Unspent then 1 else 0
  let headerCode := (numBitmapBytes - numBitmapBytesAdjustment) <<< 2 |||
    (if output0Unspent then 0x01 else 0) ||| (if output1Unspent then 0x02 else 0)
  pure (headerCode, numBitmapBytes)

/-- A byte of the bitmap. -/
def unspentBits (unspent : ℕ → Bool) : UInt8 :=
  (range 8).foldl (fun bits j => if unspent j then bits ||| (1 <<< UInt8.ofNat j) else bits) 0

/-- The bitmap from the byte `i` on. The first two outputs are not in it. -/
def bitmapFrom (entry : UtxoEntry) (i : ℕ) : (numBytes : ℕ) → List UInt8
  | 0 => []
  | numBytes + 1 =>
    unspentBits (fun j => !entry.isOutputSpent (ofNat (2 + i * 8 + j))) ::
      bitmapFrom entry (i + 1) numBytes

/-- What is put for an unspent output. -/
def putUtxoOutput (keys : PubKeys) (out : UtxoOutput) : List UInt8 :=
  putCompressedTxOut keys (uint64 out.amount) out.scriptVersion out.pkScript out.compressed true

/-- The number of bytes of the buffer that an entry is put into. -/
def utxoEntrySize (keys : PubKeys) (entry : UtxoEntry) (headerCode numBitmapBytes : ℕ) : ℕ :=
  serializeSizeVLQ entry.txVersion.toNat + serializeSizeVLQ entry.height.toNat +
    serializeSizeVLQ entry.index.toNat +
    serializeSizeVLQ (encodeFlags entry.isCoinBase entry.hasExpiry entry.txType false).toNat +
    serializeSizeVLQ headerCode + numBitmapBytes +
    (entry.unspentOutputs.map fun output => compressedTxOutSize keys (uint64 output.2.amount)
      output.2.scriptVersion output.2.pkScript output.2.compressed true).sum +
    if entry.txType = .sStx then entry.stakeExtra.length else 0

/-- The bytes that are put into the buffer, one part after the other. -/
def utxoEntryBytes (keys : PubKeys) (entry : UtxoEntry) (headerCode numBitmapBytes : ℕ) :
    List UInt8 :=
  putVLQ entry.txVersion.toNat ++ (putVLQ entry.height.toNat ++ (putVLQ entry.index.toNat ++
    (putVLQ (encodeFlags entry.isCoinBase entry.hasExpiry entry.txType false).toNat ++
      (putVLQ headerCode ++
        (bitmapFrom entry 0 numBitmapBytes ++
          (entry.unspentOutputs.flatMap (fun output => putUtxoOutput keys output.2) ++
          if entry.txType = .sStx then entry.stakeExtra else []))))))

/-- A buffer of `size` zero bytes after bytes were put into it. -/
def filled (size : ℕ) (bs : List UInt8) : Except DecodeErr (List UInt8) :=
  if size < bs.length then .error .panic else .ok (bs ++ replicate (size - bs.length) 0)

/-- `serializeUtxoEntry`: nothing for an entry that is fully spent. -/
def serializeUtxoEntry (keys : PubKeys) (entry : UtxoEntry) :
    Except DecodeErr (Option (List UInt8)) :=
  if entry.isFullySpent then .ok none
  else match entry.sparseOutputs.keys.getLast? with
    | none => .error .panic
    | some highIndex => do
      let (headerCode, numBitmapBytes) ← utxoEntryHeaderCode entry highIndex
      let serialized ← filled (utxoEntrySize keys entry headerCode numBitmapBytes)
        (utxoEntryBytes keys entry headerCode numBitmapBytes)
      pure (some serialized)

/-! ## Reading -/

/-- A quantity that other bytes have to follow. -/
def takeVLQ (text : String) (serialized : List UInt8) : Except DecodeErr (ℕ × List UInt8) := do
  let (n, bytesRead) := deserializeVLQ serialized
  rejectIf (serialized.length ≤ bytesRead) (.errDeserialize text)
  pure (n, serialized.drop bytesRead)

/-- The bits of a byte of the bitmap that are set. -/
def setBits (bits : UInt8) : List ℕ :=
  (range 8).filter fun j => (bits >>> UInt8.ofNat j) &&& 0x01 != 0

/-- The indexes of the outputs that a bitmap has from its byte `i` on. -/
def bitmapIndexes (i : ℕ) : (bitmap : List UInt8) → List UInt32
  | [] => []
  | bits :: rest =>
    (setBits bits).map (fun j => ofNat (2 + i * 8 + j)) ++ bitmapIndexes (i + 1) rest

/-- An error of a called function is reported with a text before its own. -/
def withText {α : Type} (text : String) : Except DecodeErr α → Except DecodeErr α
  | .error (.errDeserialize cause) => .error (.errDeserialize (text ++ cause))
  | result => result

@[simp]
theorem withText_ok {α : Type} (text : String) (a : α) : withText text (.ok a) = .ok a := rfl

/-- The outputs at some indexes, with the bytes after them. -/
def decodeOutputs (i : ℕ) :
    (outputIndexes : List UInt32) → Std.ExtTreeMap UInt32 UtxoOutput → List UInt8 →
    Except DecodeErr (Std.ExtTreeMap UInt32 UtxoOutput × List UInt8)
  | [], outputs, rest => .ok (outputs, rest)
  | outputIndex :: more, outputs, rest => do
    let out ← withText ("unable to decode utxo at index " ++ toString i ++ ": ")
      (decodeCompressedTxOut rest true)
    decodeOutputs (i + 1) more
      (outputs.insert outputIndex
        ⟨out.compressedScript, out.amount, out.scriptVersion, true, false⟩)
      (rest.drop out.bytesRead)

/-- `deserializeUtxoEntry`: the entry that bytes stand for. -/
def deserializeUtxoEntry (serialized : List UInt8) : Except DecodeErr UtxoEntry := do
  let (version, rest) ← takeVLQ "unexpected end of data after version" serialized
  let (blockHeight, rest) ← takeVLQ "unexpected end of data after height" rest
  let (blockIndex, rest) ← takeVLQ "unexpected end of data after index" rest
  let (flags, rest) ← takeVLQ "unexpected end of data after flags" rest
  let (isCoinBase, hasExpiry, txType, _) := decodeFlags (UInt8.ofNat flags)
  let (code, rest) ← takeVLQ "unexpected end of data after header" rest
  let output0Unspent := code.testBit 0
  let output1Unspent := code.testBit 1
  let numBitmapBytes := code >>> 2 + if !output0Unspent && !output1Unspent then 1 else 0
  rejectIf (rest.length < numBitmapBytes)
    (.errDeserialize "unexpected end of data for unspentness bitmap")
  -- the loop over the bitmap counts in 32 bits
  let bitmap := rest.take (u32 numBitmapBytes)
  let outputIndexes :=
    (if output0Unspent then [0] else []) ++ (if output1Unspent then [1] else []) ++
    bitmapIndexes 0 bitmap
  let (outputs, rest) ← decodeOutputs 0 outputIndexes ∅ (rest.drop (u32 numBitmapBytes))
  pure { sparseOutputs := outputs, stakeExtra := if txType = .sStx then rest else [],
         txVersion := UInt16.ofNat version, height := ofNat blockHeight,
         index := ofNat blockIndex, txType := txType, isCoinBase := isCoinBase, hasExpiry :=
           hasExpiry }

/-! ## The bitmap -/

theorem setBits_unspentBits (unspent : ℕ → Bool) :
    setBits (unspentBits unspent) = (range 8).filter unspent := by
  have hbits : ∀ b0 b1 b2 b3 b4 b5 b6 b7 : Bool,
      setBits (unspentBits fun j => [b0, b1, b2, b3, b4, b5, b6, b7].getD j false)
        = (range 8).filter fun j => [b0, b1, b2, b3, b4, b5, b6, b7].getD j false := by
    decide +kernel
  have h := hbits (unspent 0) (unspent 1) (unspent 2) (unspent 3) (unspent 4) (unspent 5)
    (unspent 6) (unspent 7)
  simpa [unspentBits, range, range.loop, filter] using h

/-- The indexes below a bound that an entry has unspent. -/
def unspentBelow (entry : UtxoEntry) (start length : ℕ) : List UInt32 :=
  ((range' start length).filter fun k => !entry.isOutputSpent (ofNat k)).map ofNat

theorem unspentBelow_add (entry : UtxoEntry) (start m n : ℕ) :
    unspentBelow entry start (m + n) = unspentBelow entry start m ++
      unspentBelow entry (start + m) n := by
  rw [unspentBelow, ← range'_append_1, filter_append, map_append]
  rfl

/-- The bits that are read are the outputs that are unspent. -/
theorem bitmapIndexes_bitmapFrom (entry : UtxoEntry) (i n : ℕ) :
    bitmapIndexes i (bitmapFrom entry i n) = unspentBelow entry (2 + i * 8) (8 * n) := by
  induction n generalizing i with
  | zero => rfl
  | succ n ih =>
    have hbyte : (range 8).map (2 + i * 8 + ·) = range' (2 + i * 8) 8 := by
      rw [range_eq_range', map_add_range', Nat.add_zero]
    have hnext : 2 + (i + 1) * 8 = 2 + i * 8 + 8 := by omega
    have hlength : 8 * (n + 1) = 8 + 8 * n := by omega
    rw [bitmapFrom, bitmapIndexes, setBits_unspentBits, ih, hlength, unspentBelow_add, hnext]
    congr 1
    rw [unspentBelow, ← hbyte, filter_map, map_map]
    rfl

theorem outputIndexes_eq_unspentBelow (entry : UtxoEntry) (n : ℕ) :
    (if !entry.isOutputSpent 0 then [0] else []) ++ (if !entry.isOutputSpent 1 then [1] else []) ++
      bitmapIndexes 0 (bitmapFrom entry 0 n) = unspentBelow entry 0 (2 + 8 * n) := by
  rw [bitmapIndexes_bitmapFrom, unspentBelow_add]
  congr 1
  unfold unspentBelow
  cases h0 : entry.isOutputSpent 0 <;> cases h1 : entry.isOutputSpent 1 <;> simp [range', h0, h1]

/-! ## The unspent outputs in their order -/

section Order

variable (entry : UtxoEntry)

theorem pairwise_unspentOutputs :
    entry.unspentOutputs.Pairwise fun a b => a.1.toNat < b.1.toNat := by
  refine (Std.ExtTreeMap.ordered_keys_toList.imp ?_).filter _
  intro a b hab
  exact lt_iff_toNat_lt.1 (Std.compare_eq_lt.1 hab)

/-- The unspent outputs. -/
theorem mem_unspentOutputs {output : UInt32 × UtxoOutput} : output ∈ entry.unspentOutputs ↔
    entry.sparseOutputs[output.1]? = some output.2 ∧ output.2.spent = false := by
  rw [UtxoEntry.unspentOutputs, mem_filter, Bool.not_eq_true']
  exact and_congr_left' Std.ExtTreeMap.mem_toList_iff_getElem?_eq_some

theorem isOutputSpent_eq_false {i : UInt32} :
    entry.isOutputSpent i = false ↔ ∃ out, (i, out) ∈ entry.unspentOutputs := by
  simp only [mem_unspentOutputs, UtxoEntry.isOutputSpent]
  rcases entry.sparseOutputs[i]? with _ | out <;> simp

theorem mem_of_isOutputSpent_eq_false {i : UInt32} (h : entry.isOutputSpent i = false) :
    i ∈ entry.sparseOutputs := by
  obtain ⟨out, hout⟩ := (isOutputSpent_eq_false entry).1 h
  rw [Std.ExtTreeMap.mem_iff_isSome_getElem?, ((mem_unspentOutputs entry).1 hout).1]
  rfl

/-- The members of a list in strict order below a bound are those of the numbers below the bound
that are in it. -/
theorem filter_range_eq {l : List ℕ} {p : ℕ → Bool} {n : ℕ} (hl : l.Pairwise (· < ·))
    (hp : ∀ k, k ∈ l ↔ k < n ∧ p k = true) : (range n).filter p = l := by
  apply Perm.eq_of_pairwise' (r := (· < ·)) (pairwise_lt_range.filter _) hl
  rw [perm_ext_iff_of_nodup (nodup_range.filter _) (hl.imp ne_of_lt)]
  intro k
  rw [hp, mem_filter, mem_range]

/-- The unspent outputs below an index. -/
theorem unspentBelow_eq {n : ℕ} (hn : n ≤ 2^32) :
    unspentBelow entry 0 n =
      (entry.unspentOutputs.filter fun output => output.1.toNat < n).map Prod.fst := by
  have hnumbers : (range n).filter (fun k => !entry.isOutputSpent (ofNat k)) =
      (entry.unspentOutputs.filter fun output => output.1.toNat < n).map fun output =>
        output.1.toNat := by
    apply filter_range_eq
    · exact pairwise_map.2 ((pairwise_unspentOutputs entry).filter _)
    · intro k
      rw [Bool.not_eq_true', isOutputSpent_eq_false]
      constructor
      · intro hk
        obtain ⟨⟨i, out⟩, hmem, rfl⟩ := mem_map.1 hk
        obtain ⟨hmem, hlt⟩ := mem_filter.1 hmem
        exact ⟨of_decide_eq_true hlt, out, by rwa [UInt32.ofNat_toNat]⟩
      · rintro ⟨hlt, out, hmem⟩
        have hk : (ofNat k).toNat = k := toNat_ofNat_of_lt (hlt.trans_le hn)
        exact mem_map.2 ⟨(ofNat k, out), mem_filter.2 ⟨hmem, by simp [hk, hlt]⟩, hk⟩
  rw [unspentBelow, ← range_eq_range', hnumbers, map_map]
  exact map_congr_left fun output _ => UInt32.ofNat_toNat

end Order

theorem filter_append_filter {α : Type*} {f : α → ℕ} {l : List α}
    (h : l.Pairwise fun a b => f a < f b) (n : ℕ) :
    l.filter (fun a => f a < n) ++ l.filter (fun a => n ≤ f a) = l := by
  induction l with
  | nil => rfl
  | cons a l ih =>
    obtain ⟨hhead, htail⟩ := pairwise_cons.1 h
    rcases lt_or_ge (f a) n with hlt | hle
    · rw [filter_cons_of_pos (by simpa using hlt), filter_cons_of_neg (by simpa using hlt),
        cons_append, ih htail]
    · have hnone : l.filter (fun a => f a < n) = [] :=
        filter_eq_nil_iff.2 fun b hb => by simpa using hle.trans (hhead b hb).le
      have hall : l.filter (fun a => n ≤ f a) = l :=
        filter_eq_self.2 fun b hb => by simpa using hle.trans (hhead b hb).le
      rw [filter_cons_of_neg (by simpa using hle), filter_cons_of_pos (by simpa using hle), hnone,
        hall, nil_append]

/-! ## Reading what was written -/

/-- An output as it is read back. -/
def UtxoOutput.stored (keys : PubKeys) (out : UtxoOutput) : UtxoOutput :=
  { out with
    pkScript := storedScript keys out.scriptVersion out.pkScript out.compressed
    compressed := true }

/-- What is known of the outputs of an entry: an amount is one that a transaction may pay, and a
script that is compressed already is one that was put. -/
structure UtxoOutput.WellFormed (keys : PubKeys) (maxAmount : ℤ) (out : UtxoOutput) : Prop where
  amount_nonneg : 0 ≤ out.amount
  amount_le : out.amount ≤ maxAmount
  script : IsCompressed keys (storedScript keys out.scriptVersion out.pkScript out.compressed)

section Read

variable {keys : PubKeys} {maxAmount : ℤ} (hmax : 9 * maxAmount + 10 < 2^64)

/-- A number is taken off the front. -/
theorem takeVLQ_append {n : ℕ} (hn : n < 2^64) {suffix : List UInt8} (hsuffix : suffix ≠ [])
    (text : String) :
    takeVLQ text (putVLQ n ++ suffix) = .ok (n, suffix) := by
  have hpos := length_pos_of_ne_nil hsuffix
  rw [takeVLQ, deserializeVLQ_putVLQ_append hn]
  dsimp only
  rw [rejectIf_bind (by rw [length_append, length_putVLQ]; omega), drop_putVLQ_append]
  rfl

include hmax in
/-- The outputs are decoded again, whatever follows them. -/
theorem decodeOutputs_append {l : List (UInt32 × UtxoOutput)}
    (hl : ∀ output ∈ l, output.2.WellFormed keys maxAmount ∧ output.2.spent = false) (i : ℕ)
    (outputs : Std.ExtTreeMap UInt32 UtxoOutput) (suffix : List UInt8) :
    decodeOutputs i (l.map Prod.fst) outputs
      (l.flatMap (fun output => putUtxoOutput keys output.2) ++ suffix)
      = .ok (l.foldl (fun outputs output => outputs.insert output.1 (output.2.stored keys)) outputs,
        suffix) := by
  induction l generalizing i outputs with
  | nil => rfl
  | cons output l ih =>
    obtain ⟨⟨hwf, hspent⟩, hl⟩ := forall_mem_cons.1 hl
    have hread :=
      decodeCompressedTxOut_append hwf.amount_nonneg
        (by linarith [hwf.amount_le, hmax]) hwf.script true
      (l.flatMap (fun output => putUtxoOutput keys output.2) ++ suffix)
    have hstored :
        output.2.stored keys = ⟨storedScript keys output.2.scriptVersion output.2.pkScript
        output.2.compressed, output.2.amount, output.2.scriptVersion, true, false⟩ := by
      rw [UtxoOutput.stored, hspent]
    rw [map_cons, flatMap_cons, append_assoc, decodeOutputs, putUtxoOutput, hread,
      withText_ok, ok_bind, drop_left, ih hl, foldl_cons, hstored]
    rfl

end Read

/-! ## The header code -/

/-- What the header code and the length of the bitmap say. -/
structure Describes (entry : UtxoEntry) (headerCode numBitmapBytes : ℕ) : Prop where
  code_lt : headerCode < 2^64
  bit0 : headerCode.testBit 0 = !entry.isOutputSpent 0
  bit1 : headerCode.testBit 1 = !entry.isOutputSpent 1
  length : headerCode >>> 2 + (if entry.isOutputSpent 0 && entry.isOutputSpent 1 then 1 else 0) =
    numBitmapBytes
  bound : 2 + 8 * numBitmapBytes ≤ 2^32

theorem headerCode_eq (a : ℕ) (b0 b1 : Bool) :
    a <<< 2 ||| (if b0 then 0x01 else 0) ||| (if b1 then 0x02 else 0) =
      4 * a + (b0.toNat + 2 * b1.toNat) := by
  have hlow : (if b0 then 0x01 else 0) ||| (if b1 then 0x02 else 0) = b0.toNat + 2 * b1.toNat := by
    cases b0 <;> cases b1 <;> rfl
  have hlt : b0.toNat + 2 * b1.toNat < 2^2 := by
    cases b0 <;> cases b1 <;> decide
  rw [Nat.or_assoc, hlow, ← Nat.shiftLeft_add_eq_or_of_lt hlt, Nat.shiftLeft_eq]
  omega

/-- What the header code describes. -/
theorem utxoEntryHeaderCode_eq_ok {entry : UtxoEntry} {highestOutputIndex : UInt32} {code n : ℕ}
    (h : utxoEntryHeaderCode entry highestOutputIndex = .ok (code, n)) :
    n = ((highestOutputIndex + 6) / 8).toNat ∧ Describes entry code n := by
  unfold utxoEntryHeaderCode at h
  simp only [bind_eq_ok, rejectIf_eq_ok, pure_eq_ok, exists_const, Prod.mk.injEq,
    headerCode_eq] at h
  obtain ⟨hnonzero, hcode, hn⟩ := h
  have hlt : n < 2^29 := by
    have h32 := (highestOutputIndex + 6).toNat_lt
    rw [← hn, UInt32.toNat_div]
    show (highestOutputIndex + 6).toNat / 8 < 2^29
    omega
  refine ⟨hn.symm, ?_⟩
  rw [hn] at hcode hnonzero
  rw [← hcode]
  cases h0 : entry.isOutputSpent 0 <;> cases h1 : entry.isOutputSpent 1
  all_goals
    simp only [h0, h1, Bool.not_true, Bool.not_false, Bool.and_true, Bool.and_false, true_and,
      Bool.false_eq_true, if_true, if_false, Bool.toNat_true, Bool.toNat_false] at hnonzero ⊢
    refine ⟨by omega, ?_, ?_, ?_, by omega⟩
    · rw [Nat.testBit_zero, h0]
      simp
      omega
    · rw [Nat.testBit_succ, Nat.testBit_zero, h1]
      simp
      omega
    · rw [Nat.shiftRight_eq_div_pow, h0, h1]
      simp
      omega

/-! ## Whole entries -/

/-- What is known of the outputs of an entry that are not spent. -/
def UtxoEntry.WellFormed (keys : PubKeys) (maxAmount : ℤ) (entry : UtxoEntry) : Prop :=
  ∀ output ∈ entry.unspentOutputs, output.2.WellFormed keys maxAmount

/-- Some outputs of an entry as they are stored. -/
def storedOutputs (keys : PubKeys) (l : List (UInt32 × UtxoOutput)) :
    Std.ExtTreeMap UInt32 UtxoOutput :=
  l.foldl (fun outputs output => outputs.insert output.1 (output.2.stored keys)) ∅

/-- The size of the bitmap. -/
theorem length_bitmapFrom (entry : UtxoEntry) (i n : ℕ) : (bitmapFrom entry i n).length = n := by
  induction n generalizing i with
  | zero => rfl
  | succ n ih => rw [bitmapFrom, length_cons, ih]

/-- The size that is computed is the size of the bytes. -/
theorem length_utxoEntryBytes (keys : PubKeys) (entry : UtxoEntry) (headerCode numBitmapBytes : ℕ) :
    (utxoEntryBytes keys entry headerCode numBitmapBytes).length
      = utxoEntrySize keys entry headerCode numBitmapBytes := by
  have houtputs : (entry.unspentOutputs.flatMap fun output => putUtxoOutput keys output.2).length =
      (entry.unspentOutputs.map fun output => compressedTxOutSize keys (uint64 output.2.amount)
        output.2.scriptVersion output.2.pkScript output.2.compressed true).sum := by
    rw [length_flatMap]
    simp only [putUtxoOutput, length_putCompressedTxOut]
  unfold utxoEntryBytes utxoEntrySize
  simp only [length_append, length_putVLQ, length_bitmapFrom, houtputs, apply_ite length,
    length_nil]
  omega

section RoundTrip

variable {keys : PubKeys} {maxAmount : ℤ} {entry : UtxoEntry}

/-- What comes back of an entry: the outputs that the bitmap reaches. The bytes of the others are
taken for a part of the data of a ticket. -/
theorem deserializeUtxoEntry_utxoEntryBytes (hmax : 9 * maxAmount + 10 < 2^64)
    (hwf : entry.WellFormed keys maxAmount) (hne : entry.unspentOutputs ≠ []) {code n : ℕ}
    (h : Describes entry code n) :
    deserializeUtxoEntry (utxoEntryBytes keys entry code n) = .ok { entry with
      sparseOutputs :=
        storedOutputs keys (entry.unspentOutputs.filter fun output => output.1.toNat < 2 + 8 * n)
      stakeExtra :=
        if entry.txType = .sStx then
          (entry.unspentOutputs.filter fun output => 2 + 8 * n ≤ output.1.toNat).flatMap
            (fun output => putUtxoOutput keys output.2) ++ entry.stakeExtra
        else [] } := by
  have hversion := entry.txVersion.toNat_lt
  have hheight := entry.height.toNat_lt
  have hindex := entry.index.toNat_lt
  have hflags := (encodeFlags entry.isCoinBase entry.hasExpiry entry.txType false).toNat_lt
  have hbound := h.bound
  -- the outputs that the bitmap reaches, and the others
  set extra := if entry.txType = .sStx then entry.stakeExtra else [] with hextra
  set below := entry.unspentOutputs.filter fun output => output.1.toNat < 2 + 8 * n with hbelow
  set above := entry.unspentOutputs.filter fun output => 2 + 8 * n ≤ output.1.toNat with habove
  have hsplit : entry.unspentOutputs.flatMap (fun output => putUtxoOutput keys output.2) ++ extra =
      below.flatMap (fun output => putUtxoOutput keys output.2) ++
        (above.flatMap (fun output => putUtxoOutput keys output.2) ++ extra) := by
    rw [← append_assoc, ← flatMap_append, filter_append_filter (pairwise_unspentOutputs entry)]
  have hne' : entry.unspentOutputs.flatMap (fun output => putUtxoOutput keys output.2) ++
      extra ≠ [] := by
    obtain ⟨output, l, hunspent⟩ := exists_cons_of_ne_nil hne
    rw [hunspent, flatMap_cons, append_assoc]
    exact append_ne_nil_of_left_ne_nil (putCompressedTxOut_ne_nil _ _ _ _ _ _) _
  have hwf' : ∀ output ∈ below, output.2.WellFormed keys maxAmount ∧ output.2.spent = false := by
    intro output houtput
    have hmem := (mem_filter.1 houtput).1
    exact ⟨hwf output hmem, ((mem_unspentOutputs entry).1 hmem).2⟩
  unfold deserializeUtxoEntry utxoEntryBytes
  iterate 4
    rw [takeVLQ_append (by omega) (putVLQ_append_ne_nil _ _), ok_bind]
    dsimp only
  rw [takeVLQ_append h.code_lt (append_ne_nil_of_right_ne_nil _ hne'), ok_bind]
  rw [UInt8.ofNat_toNat, (decodeFlags_encodeFlags _ _ _ _).2]
  have hlength : code >>> 2 + (if !code.testBit 0 && !code.testBit 1 then 1 else 0) = n := by
    rw [h.bit0, h.bit1, Bool.not_not, Bool.not_not, h.length]
  have hu32 : u32 n = n := u32_of_lt (by omega)
  rw [hlength, hu32, rejectIf_bind (by rw [length_append, length_bitmapFrom]; omega),
    take_left' (length_bitmapFrom entry 0 n), drop_left' (length_bitmapFrom entry 0 n),
    h.bit0, h.bit1, outputIndexes_eq_unspentBelow, unspentBelow_eq entry h.bound, hsplit,
    decodeOutputs_append hmax hwf', ok_bind]
  simp only [UInt16.ofNat_toNat, UInt32.ofNat_toNat, hextra]
  rw [ite_congr rfl (fun hticket => by rw [if_pos hticket]) fun _ => rfl]
  rfl

/-- An entry without its spent outputs, and with the scripts as they are stored. Only tickets have
data for the staking system. -/
def UtxoEntry.unspentPart (keys : PubKeys) (entry : UtxoEntry) : UtxoEntry :=
  { entry with
    sparseOutputs :=
      (entry.sparseOutputs.filter fun _ out => !out.spent).map fun _ out => out.stored keys
    stakeExtra := if entry.txType = .sStx then entry.stakeExtra else [] }

/-- What the database is to keep of an entry: nothing of one that is fully spent, and otherwise its
unspent part, by bytes that fill their buffer. -/
structure Survives (keys : PubKeys) (entry : UtxoEntry) : Prop where
  fullySpent : entry.isFullySpent = true → serializeUtxoEntry keys entry = .ok none
  restored : entry.isFullySpent = false →
    ∃ serialized, serializeUtxoEntry keys entry = .ok (some serialized) ∧
    deserializeUtxoEntry serialized = .ok (entry.unspentPart keys)
  fills : ∀ highIndex headerCode numBitmapBytes,
    utxoEntryHeaderCode entry highIndex = .ok (headerCode, numBitmapBytes) →
      (utxoEntryBytes keys entry headerCode numBitmapBytes).length
        = utxoEntrySize keys entry headerCode numBitmapBytes

/-- The part of an entry that is stored. -/
theorem getElem?_unspentPart (i : UInt32) : (entry.unspentPart keys).sparseOutputs[i]? =
    (entry.sparseOutputs[i]?.filter fun out => !out.spent).map (UtxoOutput.stored keys) := by
  rw [UtxoEntry.unspentPart, Std.ExtTreeMap.getElem?_map, Std.ExtTreeMap.getElem?_filter']

theorem getElem?_unspentPart_eq_none {i : UInt32} :
    (entry.unspentPart keys).sparseOutputs[i]? = none ↔ entry.isOutputSpent i = true := by
  rw [getElem?_unspentPart, UtxoEntry.isOutputSpent]
  rcases entry.sparseOutputs[i]? with _ | out <;> simp

theorem getElem?_foldl_insert {l : List (UInt32 × UtxoOutput)}
    (hl : ∀ output ∈ l, output ∈ entry.unspentOutputs)
    (outputs : Std.ExtTreeMap UInt32 UtxoOutput) (i : UInt32) :
    (l.foldl (fun outputs output => outputs.insert output.1 (output.2.stored keys)) outputs)[i]? =
      if i ∈ l.map Prod.fst then (entry.unspentPart keys).sparseOutputs[i]? else outputs[i]? := by
  induction l generalizing outputs with
  | nil => simp
  | cons output l ih =>
    obtain ⟨houtput, hl⟩ := forall_mem_cons.1 hl
    obtain ⟨hget, hspent⟩ := (mem_unspentOutputs entry).1 houtput
    rw [foldl_cons, ih hl, Std.ExtTreeMap.getElem?_insert, map_cons]
    rcases eq_or_ne output.1 i with rfl | hne
    · simp [getElem?_unspentPart, hget, hspent]
    · simp only [Std.compare_eq_iff_eq, hne, if_false, mem_cons, hne.symm, false_or]

/-- The stored outputs are all of them iff none is out of reach. -/
theorem storedOutputs_eq_iff {n : ℕ} :
    storedOutputs keys (entry.unspentOutputs.filter fun output => output.1.toNat < n)
      = (entry.unspentPart keys).sparseOutputs ↔ ∀ i, entry.isOutputSpent i = false →
      i.toNat < n := by
  have hmem : ∀ i, i ∈ (entry.unspentOutputs.filter fun output => output.1.toNat < n).map Prod.fst ↔
      entry.isOutputSpent i = false ∧ i.toNat < n := by
    simp [isOutputSpent_eq_false]
  rw [Std.ExtTreeMap.ext_getElem?_iff]
  refine forall_congr' fun i => ?_
  rw [storedOutputs, getElem?_foldl_insert fun output houtput => (mem_filter.1 houtput).1]
  split_ifs with hi <;> rw [hmem] at hi
  · exact iff_of_true rfl fun _ => hi.2
  · rw [Std.ExtTreeMap.getElem?_empty, eq_comm, getElem?_unspentPart_eq_none, ← Bool.not_eq_false]
    exact ⟨fun hspent h => absurd h hspent, fun h hspent => hi ⟨hspent, h hspent⟩⟩

variable {highIndex : UInt32}

theorem getLast?_keys (h : entry.sparseOutputs.keys.getLast? = some highIndex) :
    highIndex ∈ entry.sparseOutputs ∧ ∀ i ∈ entry.sparseOutputs, i.toNat ≤ highIndex.toNat := by
  obtain ⟨l, hkeys⟩ := getLast?_eq_some_iff.1 h
  constructor
  · rw [← Std.ExtTreeMap.mem_keys, hkeys]
    simp
  · intro i hi
    rw [← Std.ExtTreeMap.mem_keys, hkeys, mem_append, mem_singleton] at hi
    rcases hi with hi | rfl
    · have hordered := Std.ExtTreeMap.ordered_keys (t := entry.sparseOutputs)
      rw [hkeys] at hordered
      have hlt := (pairwise_append.1 hordered).2.2 i hi highIndex (mem_singleton_self _)
      exact (lt_iff_toNat_lt.1 (Std.compare_eq_lt.1 hlt)).le
    · exact le_rfl

/-- Fully spent is without unspent outputs. -/
theorem isFullySpent_eq_true : entry.isFullySpent = true ↔ entry.unspentOutputs = [] := by
  rw [UtxoEntry.isFullySpent, UtxoEntry.unspentOutputs, all_eq_true, filter_eq_nil_iff]
  simp

theorem isFullySpent_eq_false : entry.isFullySpent = false ↔ entry.unspentOutputs ≠ [] := by
  rw [ne_eq, ← isFullySpent_eq_true, Bool.not_eq_true]

/-- The number of bitmap bytes wraps at the last indexes. -/
theorem numBitmapBytes_eq (highIndex : UInt32) : ((highIndex + 6) / 8).toNat =
    if highIndex.toNat + 6 < 2^32 then (highIndex.toNat + 6) / 8 else 0 := by
  have hlt := highIndex.toNat_lt
  have h6 : (6 : UInt32).toNat = 6 := rfl
  have h8 : (8 : UInt32).toNat = 8 := rfl
  rw [UInt32.toNat_div, UInt32.toNat_add, h6, h8]
  split_ifs with h <;> omega

/-- The unspent part of an entry comes back exactly when the header code is computed and the bitmap
reaches each unspent output. -/
theorem restored_iff (hmax : 9 * maxAmount + 10 < 2^64) (hwf : entry.WellFormed keys maxAmount)
    (hne : entry.isFullySpent = false)
    (hlast : entry.sparseOutputs.keys.getLast? = some highIndex) :
    (∃ serialized, serializeUtxoEntry keys entry = .ok (some serialized) ∧
        deserializeUtxoEntry serialized = .ok (entry.unspentPart keys)) ↔
      (∃ code n, utxoEntryHeaderCode entry highIndex = .ok (code, n)) ∧
        ∀ i, entry.isOutputSpent i = false → i.toNat < 2 + 8 * ((highIndex + 6) / 8).toNat := by
  have hne' := isFullySpent_eq_false.1 hne
  have hserialize : ∀ serialized, serializeUtxoEntry keys entry = .ok (some serialized) ↔
      ∃ code n, utxoEntryHeaderCode entry highIndex = .ok (code, n) ∧
      utxoEntryBytes keys entry code n = serialized := by
    intro serialized
    rw [serializeUtxoEntry, if_neg (by simp [hne]), hlast]
    simp only [bind_eq_ok, Prod.exists, pure_eq_ok, Option.some.injEq, filled,
      length_utxoEntryBytes, lt_irrefl,
      if_false, Nat.sub_self, replicate_zero, append_nil, Except.ok.injEq, exists_eq_left']
  constructor
  · rintro ⟨serialized, hok, hread⟩
    obtain ⟨code, n, hheader, rfl⟩ := (hserialize serialized).1 hok
    obtain ⟨rfl, hdescribes⟩ := utxoEntryHeaderCode_eq_ok hheader
    rw [deserializeUtxoEntry_utxoEntryBytes hmax hwf hne' hdescribes] at hread
    exact ⟨⟨code, _, hheader⟩,
      storedOutputs_eq_iff.1 (congrArg UtxoEntry.sparseOutputs (Except.ok.inj hread))⟩
  · rintro ⟨⟨code, n, hheader⟩, hreach⟩
    obtain ⟨rfl, hdescribes⟩ := utxoEntryHeaderCode_eq_ok hheader
    refine ⟨_, (hserialize _).2 ⟨code, _, hheader, rfl⟩, ?_⟩
    have hnone : entry.unspentOutputs.filter
        (fun output => 2 + 8 * ((highIndex + 6) / 8).toNat ≤ output.1.toNat) = [] := by
      refine filter_eq_nil_iff.2 fun output houtput => ?_
      have hlt := hreach output.1 ((isOutputSpent_eq_false entry).2 ⟨output.2, houtput⟩)
      simpa using hlt
    rw [deserializeUtxoEntry_utxoEntryBytes hmax hwf hne' hdescribes,
      storedOutputs_eq_iff.2 hreach, hnone]
    rfl

/-- Whether an output of an entry is beyond the reach of the bitmap. -/
def InReach (entry : UtxoEntry) : Prop :=
  (∀ i ∈ entry.sparseOutputs, i.toNat + 6 < 2^32) ∨ ∀ i, entry.isOutputSpent i = false → i.toNat < 2

/-- An entry survives the database exactly when none of its indexes is one of the last six, or none
of its outputs from 2 on is unspent. -/
theorem survives_iff_inReach (hmax : 9 * maxAmount + 10 < 2^64)
    (hwf : entry.WellFormed keys maxAmount) :
    Survives keys entry ↔ InReach entry := by
  have hfills := length_utxoEntryBytes keys entry
  cases hspent : entry.isFullySpent with
  | true =>
    refine iff_of_true ⟨fun _ => by rw [serializeUtxoEntry, if_pos hspent], by simp [hspent],
      fun _ _ _ _ => hfills _ _⟩ (Or.inr fun i hi => ?_)
    obtain ⟨out, hout⟩ := (isOutputSpent_eq_false entry).1 hi
    rw [isFullySpent_eq_true.1 hspent] at hout
    exact absurd hout not_mem_nil
  | false =>
    -- some output is unspent, and its index is not above the highest one
    obtain ⟨j, hj⟩ : ∃ j, entry.isOutputSpent j = false := by
      obtain ⟨⟨j, out⟩, hout⟩ := exists_mem_of_ne_nil _ (isFullySpent_eq_false.1 hspent)
      exact ⟨j, (isOutputSpent_eq_false entry).2 ⟨out, hout⟩⟩
    have hjmem := mem_of_isOutputSpent_eq_false entry hj
    have hlast := getLast?_eq_some_getLast (ne_nil_of_mem (Std.ExtTreeMap.mem_keys.2 hjmem))
    obtain ⟨hhigh, hle⟩ := getLast?_keys hlast
    have hsurvives :
        Survives keys entry ↔ ∃ serialized, serializeUtxoEntry keys entry = .ok (some serialized) ∧
        deserializeUtxoEntry serialized = .ok (entry.unspentPart keys) :=
      ⟨fun h => h.restored hspent, fun h =>
        ⟨by simp [hspent], fun _ => h, fun _ _ _ _ => hfills _ _⟩⟩
    have hlow : j.toNat < 2 → ¬ (entry.isOutputSpent 0 ∧ entry.isOutputSpent 1) := by
      rintro hlt ⟨h0, h1⟩
      have hcases : j = 0 ∨ j = 1 := by
        rw [← UInt32.toNat_inj, ← UInt32.toNat_inj]
        show j.toNat = 0 ∨ j.toNat = 1
        omega
      rcases hcases with rfl | rfl
      · simp [h0] at hj
      · simp [h1] at hj
    have hjle := hle j hjmem
    rw [hsurvives, restored_iff hmax hwf hspent hlast]
    simp only [utxoEntryHeaderCode, bind_eq_ok, rejectIf_eq_ok, pure_eq_ok, exists_const,
      Prod.mk.injEq, exists_and_left, exists_eq', and_true, Bool.not_not]
    rw [numBitmapBytes_eq]
    split_ifs with hsmall
    · -- the bitmap reaches the highest index
      refine iff_of_true ⟨?_, fun i hi => ?_⟩ (Or.inl fun i hi => ?_)
      · rintro ⟨h0, h1, hzero⟩
        exact hlow (by omega) ⟨h0, h1⟩
      · have hile := hle i (mem_of_isOutputSpent_eq_false entry hi)
        omega
      · have hile := hle i hi
        omega
    · -- the bitmap is empty
      constructor
      · rintro ⟨-, hreach⟩
        exact Or.inr fun i hi => by simpa using hreach i hi
      · rintro (hall | hreach)
        · exact absurd (hall _ hhigh) hsmall
        · exact ⟨fun h => hlow (hreach j hj) ⟨h.1, h.2.1⟩, fun i hi => by simpa using hreach i hi⟩

end RoundTrip

/-- An unspent output of an amount, with a script of one byte. -/
def sampleOutput (amount : ℤ) : UtxoOutput := ⟨[OP_1], amount, 0, false, false⟩

/-- A ticket with outputs at some indexes. -/
def sampleEntry (indexes : List UInt32) : UtxoEntry where
  sparseOutputs := indexes.foldl (fun outputs i => outputs.insert i (sampleOutput 5000)) ∅
  stakeExtra := [1, 2, 3]
  txVersion := 1
  height := 300
  index := 2
  txType := .sStx
  isCoinBase := false
  hasExpiry := true

/-- The sample output is well formed. -/
theorem wellFormed_sampleOutput : (sampleOutput 5000).WellFormed sampleKeys (21 * 10^14) :=
  ⟨by decide, by decide,
    ⟨⟨[OP_1], puts_putCompressedScript sampleKeys 0 [OP_1]⟩, by decide +kernel⟩⟩

/-- An entry with two unspent outputs. -/
theorem survives_sampleEntry : 9 * (21 * 10^14 : ℤ) + 10 < 2^64 ∧
    (sampleEntry [2, 9]).WellFormed sampleKeys (21 * 10^14) ∧ InReach (sampleEntry [2, 9]) ∧
    Survives sampleKeys (sampleEntry [2, 9]) := by
  have hmax : 9 * (21 * 10^14 : ℤ) + 10 < 2^64 := by norm_num
  have houtputs :
      (sampleEntry [2, 9]).unspentOutputs = [(2, sampleOutput 5000), (9, sampleOutput 5000)] := by
    decide +kernel
  have hwf : (sampleEntry [2, 9]).WellFormed sampleKeys (21 * 10^14) := by
    rw [UtxoEntry.WellFormed, houtputs]
    simpa using wellFormed_sampleOutput
  have hreach : InReach (sampleEntry [2, 9]) := by
    refine Or.inl fun i hi => ?_
    have hkeys : (sampleEntry [2, 9]).sparseOutputs.keys = [2, 9] := by decide +kernel
    rw [← Std.ExtTreeMap.mem_keys, hkeys] at hi
    simp only [mem_cons, not_mem_nil, or_false] at hi
    rcases hi with rfl | rfl <;> decide
  exact ⟨hmax, hwf, hreach, (survives_iff_inReach hmax hwf).2 hreach⟩

/-- With an unspent output at the last index, the outputs from 2 on are not read back. -/
theorem exists_unspent_output_lost : ∃ serialized restored,
    serializeUtxoEntry sampleKeys (sampleEntry [0, 0xffffffff]) = .ok (some serialized) ∧
      deserializeUtxoEntry serialized = .ok restored ∧
      (sampleEntry [0, 0xffffffff]).isOutputSpent 0xffffffff = false ∧
      restored.isOutputSpent 0xffffffff = true ∧
      ¬ Survives sampleKeys (sampleEntry [0, 0xffffffff]) := by
  have hserialize : serializeUtxoEntry sampleKeys (sampleEntry [0, 0xffffffff])
      = .ok (some [1, 129, 44, 2, 6, 1, 44, 0, 65, 81, 44, 0, 65, 81, 1, 2, 3]) := by decide +kernel
  have hread :
      ∃ restored, deserializeUtxoEntry [1, 129, 44, 2, 6, 1, 44, 0, 65, 81, 44, 0, 65, 81, 1, 2, 3]
      = .ok restored ∧ restored.isOutputSpent 0xffffffff = true := by decide +kernel
  obtain ⟨restored, hrestored, hlost⟩ := hread
  refine ⟨_, restored, hserialize, hrestored, by decide +kernel, hlost, fun h => ?_⟩
  obtain ⟨serialized, hserialized, hback⟩ := h.restored (by decide +kernel)
  obtain rfl := Option.some.inj (Except.ok.inj (hserialize.symm.trans hserialized))
  obtain rfl := Except.ok.inj (hrestored.symm.trans hback)
  have hpart :
      ((sampleEntry [0, 0xffffffff]).unspentPart sampleKeys).isOutputSpent 0xffffffff = false := by
    decide +kernel
  exact Bool.noConfusion (hpart.symm.trans hlost)

end Hcashd.Blockchain.Stored
