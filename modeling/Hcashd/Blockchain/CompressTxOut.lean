import Hcashd.Blockchain.Compress
import Hcashd.Stake.StakeTx

/-!
# Compressed outputs

The rest of `compress.go`: amounts, outputs and the byte of flags. An amount is written as a digit
and an exponent where it ends in zeros, and comes back as long as nine times its value is a number
of 64 bits (`decompressTxOutAmount_compressTxOutAmount`). An output is read back from its bytes,
whatever follows them (`decodeCompressedTxOut_append`).
-/

namespace Hcashd.Blockchain

open Lib Hcashd.Stake List

/-! ## Amounts -/

/-- The loop that takes zeros off the end of an amount, with how many were taken off. -/
def stripZeros : (turns : ℕ) → (amount : ℕ) → ℕ × ℕ
  | 0, amount => (amount, 0)
  | turns + 1, amount =>
    if amount % 10 = 0 then
      let (amount, exponent) := stripZeros turns (amount / 10)
      (amount, exponent + 1)
    else (amount, 0)

/-- `compressTxOutAmount`: an amount without its trailing zeros, with their number. -/
def compressTxOutAmount (amount : ℕ) : ℕ :=
  if amount = 0 then 0
  else
    let (amount, exponent) := stripZeros 9 amount
    if exponent < 9 then
      let lastDigit := amount % 10
      (1 + 10 * (9 * (amount / 10) + lastDigit - 1) + exponent) % 2^64
    else (10 + 10 * (amount - 1)) % 2^64

/-- `decompressTxOutAmount`: the amount with its zeros put back. -/
def decompressTxOutAmount (amount : ℕ) : ℕ :=
  if amount = 0 then 0
  else
    let exponent := (amount - 1) % 10
    let amount := (amount - 1) / 10
    let n := if exponent < 9 then amount / 9 * 10 + (amount % 9 + 1) else amount + 1
    n * 10 ^ exponent % 2^64

/-- A compressed amount is a 64-bit number. -/
theorem compressTxOutAmount_lt (amount : ℕ) : compressTxOutAmount amount < 2^64 := by
  unfold compressTxOutAmount
  split_ifs
  · norm_num
  · dsimp only
    split_ifs <;> exact Nat.mod_lt _ (by norm_num)

/-- The loop that strips the zeros of an amount. -/
theorem stripZeros_spec {turns amount rest exponent : ℕ}
    (h : stripZeros turns amount = (rest, exponent)) :
    amount = rest * 10 ^ exponent ∧ exponent ≤ turns ∧ (exponent < turns → rest % 10 ≠ 0) := by
  induction turns generalizing amount exponent with
  | zero =>
    obtain ⟨rfl, rfl⟩ := Prod.mk.inj h
    simp
  | succ turns ih =>
    rw [stripZeros] at h
    split_ifs at h with hzero
    · rcases hloop : stripZeros turns (amount / 10) with ⟨rest', exponent'⟩
      rw [hloop] at h
      obtain ⟨rfl, rfl⟩ := Prod.mk.inj h
      obtain ⟨hvalue, hle, hdigit⟩ := ih hloop
      refine ⟨?_, by omega, fun hlt => hdigit (by omega)⟩
      calc amount = amount / 10 * 10 := by omega
        _ = rest' * 10 ^ (exponent' + 1) := by rw [hvalue, pow_succ, Nat.mul_assoc]
    · obtain ⟨rfl, rfl⟩ := Prod.mk.inj h
      exact ⟨by simp, by omega, fun _ => hzero⟩

/-- An amount comes back if its compressed form fits in 64 bits. -/
theorem decompressTxOutAmount_compressTxOutAmount {amount : ℕ} (h : 9 * amount + 10 < 2^64) :
    decompressTxOutAmount (compressTxOutAmount amount) = amount := by
  rcases Nat.eq_zero_or_pos amount with rfl | hpos
  · rfl
  rcases hstrip : stripZeros 9 amount with ⟨rest, exponent⟩
  obtain ⟨hvalue, hle, hdigit⟩ := stripZeros_spec hstrip
  have hrest : rest ≤ amount := by
    rw [hvalue]
    exact Nat.le_mul_of_pos_right _ (by positivity)
  have hrest0 : rest ≠ 0 := by
    rintro rfl
    omega
  rw [compressTxOutAmount, if_neg hpos.ne', hstrip]
  dsimp only
  split_ifs with hlt
  · have hdigit := hdigit hlt
    rw [Nat.mod_eq_of_lt (by omega), decompressTxOutAmount, if_neg (by omega)]
    have hexp : (1 + 10 * (9 * (rest / 10) + rest % 10 - 1) + exponent - 1) % 10 =
        exponent := by omega
    have hquot : (1 + 10 * (9 * (rest / 10) + rest % 10 - 1) + exponent - 1) / 10
        = 9 * (rest / 10) + (rest % 10 - 1) := by omega
    have hback :
        (9 * (rest / 10) + (rest % 10 - 1)) / 9 * 10 + ((9 * (rest / 10) + (rest % 10 - 1)) % 9 + 1)
        = rest := by omega
    dsimp only
    rw [hexp, hquot, if_pos hlt, hback, ← hvalue, Nat.mod_eq_of_lt (by omega)]
  · obtain rfl : exponent = 9 := by omega
    rw [Nat.mod_eq_of_lt (by omega), decompressTxOutAmount, if_neg (by omega)]
    have hexp : (10 + 10 * (rest - 1) - 1) % 10 = 9 := by omega
    have hquot : (10 + 10 * (rest - 1) - 1) / 10 + 1 = rest := by omega
    dsimp only
    rw [hexp, if_neg (lt_irrefl 9), hquot, ← hvalue, Nat.mod_eq_of_lt (by omega)]

/-- Quantities and amounts have one form each, for a largest amount of which nine times as much is a
number of 64 bits. -/
theorem quantities_bijective {maxAmount : ℕ} (hmax : 9 * maxAmount + 10 < 2^64) :
    (∀ n < 2^64, ∀ suffix, (putVLQ n).length = serializeSizeVLQ n ∧
      deserializeVLQ (putVLQ n ++ suffix) = (n, serializeSizeVLQ n)) ∧
    (∀ bs cs, Whole (2^64) bs → Whole (2^64) cs → (deserializeVLQ bs).1 = (deserializeVLQ cs).1 →
      bs = cs) ∧
    ∀ amount ≤ maxAmount, decompressTxOutAmount (compressTxOutAmount amount) = amount :=
  ⟨fun n hn suffix => ⟨length_putVLQ n, deserializeVLQ_putVLQ_append hn suffix⟩,
    fun _ _ hb hc h => hb.eq_of_readVlq_eq hc h,
    fun _ hamount => decompressTxOutAmount_compressTxOutAmount (by omega)⟩

/-- With 21 million coins of 10^8 atoms: all of them, and 12.3 coins, whose last seven digits are
zeros. -/
theorem quantities_bijective_coins :
    decompressTxOutAmount (compressTxOutAmount (21 * 10 ^ 14)) = 21 * 10 ^ 14 ∧
      compressTxOutAmount 1230000000 = 1108 ∧ decompressTxOutAmount 1108 = 1230000000 := by
  obtain ⟨-, -, hamounts⟩ := quantities_bijective (show 9 * (21 * 10 ^ 14) + 10 < 2^64 by norm_num)
  have hcompressed : compressTxOutAmount 1230000000 = 1108 := by decide +kernel
  exact ⟨hamounts _ le_rfl, hcompressed, hcompressed ▸ hamounts 1230000000 (by norm_num)⟩

/-- Bytes that are cut off before their last one are read to their end all the same. -/
theorem exists_two_forms :
    ∃ bs cs, bs ≠ cs ∧ (deserializeVLQ bs).2 = bs.length ∧ (deserializeVLQ cs).2 = cs.length ∧
    (deserializeVLQ bs).1 = (deserializeVLQ cs).1 ∧ (deserializeVLQ cs).1 < 2^64 :=
  ⟨[0x80], [0x01], by decide +kernel⟩

/-! ## Outputs -/

/-- The conversion of an amount to `uint64`. -/
def uint64 (amount : ℤ) : ℕ := (amount % 2^64).toNat

/-- `compressedTxOutSize`: the number of bytes that an output is compressed to. -/
def compressedTxOutSize (keys : PubKeys) (amount : ℕ) (scriptVersion : UInt16)
    (pkScript : List UInt8) (preCompressed hasAmount : Bool) : ℕ :=
  serializeSizeVLQ scriptVersion.toNat +
    (if hasAmount then serializeSizeVLQ (compressTxOutAmount amount) else 0) +
    if preCompressed then pkScript.length
      else compressedScriptSize keys scriptVersion.toNat pkScript

/-- `putCompressedTxOut`: the bytes that are put into the target. -/
def putCompressedTxOut (keys : PubKeys) (amount : ℕ) (scriptVersion : UInt16)
    (pkScript : List UInt8) (preCompressed hasAmount : Bool) : List UInt8 :=
  (if hasAmount then putVLQ (compressTxOutAmount amount) else []) ++ putVLQ scriptVersion.toNat ++
    if preCompressed then pkScript else putCompressedScript keys scriptVersion.toNat pkScript

/-- What `decodeCompressedTxOut` returns. -/
structure DecodedTxOut where
  amount : ℤ
  scriptVersion : UInt16
  compressedScript : List UInt8
  bytesRead : ℕ
  deriving DecidableEq, Repr

/-- The amount at the front of an output. There have to be bytes after it. -/
def decodeCompressedAmount (serialized : List UInt8) : Except DecodeErr (ℤ × ℕ) := do
  let (compressedAmount, bytesRead) := deserializeVLQ serialized
  rejectIf (serialized.length ≤ bytesRead)
    (.errDeserialize "unexpected end of data after compressed amount")
  pure (int64 (decompressTxOutAmount compressedAmount), bytesRead)

/-- The part of `decodeCompressedTxOut` for the version and the script. -/
def decodeVersionedScript (serialized : List UInt8) :
    Except DecodeErr (UInt16 × List UInt8 × ℕ) := do
  let (scriptVersion, bytesRead) := deserializeVLQ serialized
  let rest := serialized.drop bytesRead
  let scriptSize := decodeCompressedScriptSize rest
  rejectIf (scriptSize < 0) (.errDeserialize "negative script size")
  rejectIf (rest.length < scriptSize)
    (.errDeserialize <| "unexpected end of data after script size (got "
    ++ toString rest.length ++ ", need " ++ toString scriptSize ++ ")")
  pure (UInt16.ofNat scriptVersion, rest.take scriptSize.toNat, bytesRead + scriptSize.toNat)

/-- `decodeCompressedTxOut`: an output as it is stored, and how many bytes were read. -/
def decodeCompressedTxOut (serialized : List UInt8) (hasAmount : Bool) :
    Except DecodeErr DecodedTxOut := do
  let (amount, offset) ← if hasAmount then decodeCompressedAmount serialized else pure (0, 0)
  let (scriptVersion, compressedScript, bytesRead) ← decodeVersionedScript (serialized.drop offset)
  pure ⟨amount, scriptVersion, compressedScript, offset + bytesRead⟩

/-- The script of an output as it is stored. -/
def storedScript (keys : PubKeys) (scriptVersion : UInt16) (pkScript : List UInt8)
    (compressed : Bool) : List UInt8 :=
  if compressed then pkScript else putCompressedScript keys scriptVersion.toNat pkScript

/-- Bytes that are put for some script, of a length that is an `int`. -/
structure IsCompressed (keys : PubKeys) (bs : List UInt8) : Prop where
  puts : ∃ pkScript, Puts keys pkScript bs
  length_lt : bs.length < 2^63

theorem IsCompressed.ne_nil {keys : PubKeys} {bs : List UInt8} (h : IsCompressed keys bs) :
    bs ≠ [] := by
  obtain ⟨pkScript, hputs⟩ := h.puts
  rcases hputs.tagged_or_general with ⟨tag, body, -, -, rfl⟩ | rfl
  · exact cons_ne_nil _ _
  · exact putVLQ_append_ne_nil _ _

/-- The size of a compressed output. -/
theorem length_putCompressedTxOut (keys : PubKeys) (amount : ℕ) (scriptVersion : UInt16)
    (pkScript : List UInt8) (preCompressed hasAmount : Bool) :
    (putCompressedTxOut keys amount scriptVersion pkScript preCompressed hasAmount).length =
      compressedTxOutSize keys amount scriptVersion pkScript preCompressed hasAmount := by
  unfold putCompressedTxOut compressedTxOutSize
  cases preCompressed <;> cases hasAmount <;> simp [length_putCompressedScript] <;> omega

theorem putCompressedTxOut_ne_nil (keys : PubKeys) (amount : ℕ) (scriptVersion : UInt16)
    (pkScript : List UInt8) (preCompressed hasAmount : Bool) :
    putCompressedTxOut keys amount scriptVersion pkScript preCompressed hasAmount ≠ [] := by
  rw [putCompressedTxOut, append_assoc]
  exact append_ne_nil_of_right_ne_nil _ (putVLQ_append_ne_nil _ _)

section Decode

variable {keys : PubKeys} {bs : List UInt8} (hbs : IsCompressed keys bs)

include hbs in
theorem decodeVersionedScript_append (scriptVersion : UInt16) (suffix : List UInt8) :
    decodeVersionedScript (putVLQ scriptVersion.toNat ++ bs ++ suffix)
      = .ok (scriptVersion, bs, (putVLQ scriptVersion.toNat ++ bs).length) := by
  obtain ⟨pkScript, hputs⟩ := hbs.puts
  have hversion := scriptVersion.toNat_lt
  rw [append_assoc, decodeVersionedScript, deserializeVLQ_putVLQ_append (by omega)]
  dsimp only
  rw [drop_putVLQ_append, hputs.decodeCompressedScriptSize_append hbs.length_lt,
    rejectIf_bind (by omega),
    rejectIf_bind (by simp), Int.toNat_natCast, take_left, UInt16.ofNat_toNat, length_append,
    length_putVLQ]
  rfl

theorem decodeCompressedAmount_append {amount : ℤ} (h0 : 0 ≤ amount) (hlt : 9 * amount + 10 < 2^64)
    {suffix : List UInt8} (hsuffix : suffix ≠ []) :
    decodeCompressedAmount (putVLQ (compressTxOutAmount (uint64 amount)) ++ suffix)
      = .ok (amount, serializeSizeVLQ (compressTxOutAmount (uint64 amount))) := by
  lift amount to ℕ using h0
  have hu : uint64 amount = amount := by
    unfold uint64
    omega
  have hpos := length_pos_of_ne_nil hsuffix
  rw [hu, decodeCompressedAmount, deserializeVLQ_putVLQ_append (compressTxOutAmount_lt _)]
  dsimp only
  rw [rejectIf_bind (by rw [length_append, length_putVLQ]; omega),
    decompressTxOutAmount_compressTxOutAmount (by omega), int64_of_range (by omega) (by omega)]
  rfl

end Decode

/-- An output is decoded again, whatever follows it. -/
theorem decodeCompressedTxOut_append {keys : PubKeys} {amount : ℤ} {scriptVersion : UInt16}
    {pkScript : List UInt8} {compressed : Bool} (h0 : 0 ≤ amount) (hlt : 9 * amount + 10 < 2^64)
    (hbs : IsCompressed keys (storedScript keys scriptVersion pkScript compressed))
    (hasAmount : Bool) (suffix : List UInt8) :
    decodeCompressedTxOut
        (putCompressedTxOut keys (uint64 amount) scriptVersion pkScript compressed hasAmount ++
          suffix) hasAmount
      = .ok ⟨if hasAmount then amount else 0, scriptVersion,
        storedScript keys scriptVersion pkScript compressed,
          (putCompressedTxOut keys (uint64 amount) scriptVersion pkScript compressed
            hasAmount).length⟩ := by
  have hput : putCompressedTxOut keys (uint64 amount) scriptVersion pkScript compressed hasAmount =
      (if hasAmount then putVLQ (compressTxOutAmount (uint64 amount)) else []) ++
        (putVLQ scriptVersion.toNat ++ storedScript keys scriptVersion pkScript compressed) :=
          append_assoc _ _ _
  rw [hput, decodeCompressedTxOut]
  cases hasAmount with
  | false =>
    have hscript := decodeVersionedScript_append hbs scriptVersion suffix
    rw [if_neg (by simp), if_neg (by simp), if_neg (by simp), nil_append, pure_bind]
    dsimp only
    rw [drop_zero, hscript, ok_bind]
    simp [pure, Except.pure]
  | true =>
    have hscript := decodeVersionedScript_append hbs scriptVersion suffix
    have hne : putVLQ scriptVersion.toNat ++ storedScript keys scriptVersion pkScript compressed ++
        suffix ≠ [] :=
      append_ne_nil_of_left_ne_nil (putVLQ_append_ne_nil _ _) _
    rw [if_pos rfl, if_pos rfl, if_pos rfl, append_assoc,
      decodeCompressedAmount_append h0 hlt hne, ok_bind]
    dsimp only
    rw [drop_putVLQ_append, hscript, ok_bind]
    simp [pure, Except.pure]

/-! ## Flags -/

/-- The number of a transaction type. -/
def txTypeBits : TxType → UInt8
  | .regular => 0
  | .sStx => 1
  | .sSGen => 2
  | .sSRtx => 3

/-- `encodeFlags`: the flags of an entry in one byte. -/
def encodeFlags (isCoinBase hasExpiry : Bool) (txType : TxType) (fullySpent : Bool) : UInt8 :=
  (txTypeBits txType <<< 2) ||| (if isCoinBase then 0x01 else 0) |||
    (if hasExpiry then 0x02 else 0) ||| (if fullySpent then 0x10 else 0)

/-- The transaction type in the third and the fourth bit of flags. -/
def decodeTxType (b : UInt8) : TxType :=
  match (b &&& 0x0c) >>> 2 with
  | 0 => .regular
  | 1 => .sStx
  | 2 => .sSGen
  | _ => .sSRtx

/-- `decodeFlagsFullySpent`: the flag of a spent transaction. -/
def decodeFlagsFullySpent (b : UInt8) : Bool := b &&& 0x10 != 0

/-- `decodeFlags`: the four parts of the byte of flags. -/
def decodeFlags (b : UInt8) : Bool × Bool × TxType × Bool :=
  (b &&& 0x01 != 0, b &&& 0x02 != 0, decodeTxType b, b &&& 0x10 != 0)

/-- Flags are read back, and stand in one byte of a quantity. -/
theorem decodeFlags_encodeFlags (isCoinBase hasExpiry : Bool) (txType : TxType)
    (fullySpent : Bool) :
    encodeFlags isCoinBase hasExpiry txType fullySpent < 0x80 ∧
      decodeFlags (encodeFlags isCoinBase hasExpiry txType fullySpent)
        = (isCoinBase, hasExpiry, txType, fullySpent) := by
  revert isCoinBase hasExpiry fullySpent
  cases txType <;> decide +kernel

end Hcashd.Blockchain
