import Hcashd.Lib.Result
import Hcashd.Lib.Vlq
import Hcashd.Lib.Word

/-!
# Compressed scripts

`compress.go`: how the scripts of stored outputs are written. A script of a standard form is a tag
and the hash or the coordinate that it pays to, and all others are their length, to which 64 is
added, and their bytes. The writer recognises seven forms, and the reader rebuilds the script from
the tag. The two were written apart from each other: a hash that is paid to under another signature
type is recognised when the type stands in one byte out of seventeen, and rebuilt with a byte that
is none of them (`restored_byte_ne`). So those scripts are lost, and all others come back
(`roundTrips_iff_isPubKeyHashAlt_eq_none`).
-/

namespace Hcashd.Blockchain

open Lib List Option

/-- Why bytes of the database are not decoded. -/
inductive DecodeErr
  /-- `errDeserialize`. -/
  | errDeserialize (text : String)
  /-- An `AssertError`. -/
  | assertion (text : String)
  /-- A run-time panic: an index or the bound of a slice out of range. -/
  | panic
  deriving DecidableEq, Repr

/-- `chainec.Secp256k1`, as far as stored keys need it. -/
structure PubKeys where
  Key : Type
  parsePubKey : List UInt8 → Option Key
  serializeUncompressed : Key → List UInt8

/-! ## Variable length quantities -/

/-- `serializeSizeVLQ`. Ten turns are enough for 64 bits. -/
def serializeSizeVLQ (n : ℕ) : ℕ := vlqSize 10 n

/-- `putVLQ`: the bytes that are put into the target. -/
def putVLQ (n : ℕ) : List UInt8 := vlq 10 n

/-- `deserializeVLQ`: a number, in 64 bits, and how many bytes were read for it. -/
def deserializeVLQ (serialized : List UInt8) : ℕ × ℕ := readVlq (2^64) serialized

/-- The size of a number. -/
@[simp]
theorem length_putVLQ (n : ℕ) : (putVLQ n).length = serializeSizeVLQ n := length_vlq 10 n

theorem serializeSizeVLQ_pos (n : ℕ) : 0 < serializeSizeVLQ n := vlqSize_pos 9 n

theorem putVLQ_append_ne_nil (n : ℕ) (suffix : List UInt8) : putVLQ n ++ suffix ≠ [] := by
  refine ne_nil_of_length_pos ?_
  rw [length_append, length_putVLQ]
  exact Nat.add_pos_left (serializeSizeVLQ_pos n) _

theorem drop_putVLQ_append (n : ℕ) (suffix : List UInt8) :
    (putVLQ n ++ suffix).drop (serializeSizeVLQ n) = suffix :=
  drop_left' (length_putVLQ n)

variable {n bytesRead : ℕ} {keys : PubKeys} {tag tp : UInt8}
  {pkScript compressed body bs cut key serialized : List UInt8}

/-- A number is read back, whatever follows it. -/
theorem deserializeVLQ_putVLQ_append (h : n < 2^64) (suffix : List UInt8) :
    deserializeVLQ (putVLQ n ++ suffix) = (n, serializeSizeVLQ n) :=
  readVlq_vlq_append (h.trans (by norm_num)) h suffix

/-- A number is read back. -/
theorem deserializeVLQ_putVLQ (h : n < 2^64) :
    deserializeVLQ (putVLQ n) = (n, serializeSizeVLQ n) := by
  have hread := deserializeVLQ_putVLQ_append h []
  rwa [append_nil] at hread

/-- No more is read than is there. -/
theorem deserializeVLQ_snd_le (serialized : List UInt8) :
    (deserializeVLQ serialized).2 ≤ serialized.length :=
  readVlq_snd_le serialized

/-- A quantity that is cut off is read to its end, as a smaller one. -/
theorem exists_deserializeVLQ_of_cut (h : n < 2^64) (hcut : Cut cut (putVLQ n)) (hnil : cut ≠ []) :
    ∃ m, deserializeVLQ cut = (m, cut.length) ∧ 0 < m ∧ m ≤ n / 128 ∧
    (2 ≤ cut.length → 128 < m) := by
  have hlt := hcut.length_lt
  rw [length_putVLQ] at hlt
  have hread := exists_readVlq_take (h.trans (by norm_num)) h (length_pos_of_ne_nil hnil) hlt
  rwa [← putVLQ, ← prefix_iff_eq_take.1 hcut.isPrefix] at hread

/-- A number that is cut off is read to the end of the bytes. -/
theorem deserializeVLQ_snd_of_isPrefix (h : n < 2^64) (hcut : cut <+: putVLQ n) :
    (deserializeVLQ cut).2 = cut.length := by
  rcases eq_or_ne cut (putVLQ n) with rfl | hne
  · rw [deserializeVLQ_putVLQ h, length_putVLQ]
  · rcases eq_or_ne cut [] with rfl | hnil
    · rfl
    · obtain ⟨m, hread, -⟩ := exists_deserializeVLQ_of_cut h ⟨hcut, hne⟩ hnil
      rw [hread]

/-! ## The opcodes and the tags -/

def OP_DATA_1 : UInt8 := 0x01
def OP_DATA_20 : UInt8 := 0x14
def OP_DATA_33 : UInt8 := 0x21
def OP_DATA_65 : UInt8 := 0x41
def OP_1 : UInt8 := 0x51
def OP_16 : UInt8 := 0x60
def OP_DUP : UInt8 := 0x76
def OP_EQUAL : UInt8 := 0x87
def OP_EQUALVERIFY : UInt8 := 0x88
def OP_HASH160 : UInt8 := 0xa9
def OP_CHECKSIG : UInt8 := 0xac
def OP_CHECKSIGALT : UInt8 := 0xbe

def cstPayToPubKeyHash : UInt8 := 0
def cstPayToScriptHash : UInt8 := 1
def cstPayToPubKeyCompEven : UInt8 := 2
def cstPayToPubKeyCompOdd : UInt8 := 3
def cstPayToPubKeyUncompEven : UInt8 := 4
def cstPayToPubKeyUncompOdd : UInt8 := 5
def cstPayToPubKeyHashBliss : UInt8 := 6
def cstPayToPubKeyHashLms : UInt8 := 7
def numSpecialScripts : ℕ := 64

/-- The suite of Bliss signatures. -/
def BSTypeBliss : UInt8 := 4

/-- The suite of LMS signatures. -/
def LMSTypeLMS : UInt8 := 5

/-! ## The forms of scripts -/

/-- The `k` bytes that a script has between a front and a back. -/
def enclosed (front back : List UInt8) (k : ℕ) (script : List UInt8) : Option (List UInt8) :=
  if script.length = front.length + k + back.length ∧ script.take front.length = front ∧
      script.drop (front.length + k) = back then
    some ((script.drop front.length).take k)
  else none

/-- `isPubKeyHash`: the hash of a pay-to-pubkey-hash script. -/
def isPubKeyHash (script : List UInt8) : Option (List UInt8) :=
  enclosed [OP_DUP, OP_HASH160, OP_DATA_20] [OP_EQUALVERIFY, OP_CHECKSIG] 20 script

/-- `isOneByteMaxDataPush`: an opcode that pushes a small number or one byte. -/
def isOneByteMaxDataPush (op : UInt8) : Bool := (OP_1 ≤ op && op ≤ OP_16) || op == OP_DATA_1

/-- `isPubKeyHashAlt`, with the hash and the byte of the signature type. -/
def isPubKeyHashAlt (script : List UInt8) : Option (List UInt8 × UInt8) :=
  match script[24]? with
  | none => none
  | some tp =>
    if isOneByteMaxDataPush tp then
      (enclosed [OP_DUP, OP_HASH160, OP_DATA_20] [OP_EQUALVERIFY, tp, OP_CHECKSIGALT] 20 script).map
        (·, tp)
    else none

/-- `isScriptHash`: the hash of a pay-to-script-hash script. -/
def isScriptHash (script : List UInt8) : Option (List UInt8) :=
  enclosed [OP_HASH160, OP_DATA_20] [OP_EQUAL] 20 script

/-- A script that pays to a valid key of `k` bytes that starts with one of `formats`. -/
def isPubKeyOf (keys : PubKeys) (push : UInt8) (k : ℕ) (formats : List UInt8)
    (script : List UInt8) :
    Option (List UInt8) :=
  (enclosed [push] [OP_CHECKSIG] k script).filter fun key =>
    key.head?.any (· ∈ formats) && (keys.parsePubKey key).isSome

/-- `isPubKey`: the key of a pay-to-pubkey script, of either form. -/
def isPubKey (keys : PubKeys) (script : List UInt8) : Option (List UInt8) :=
  (isPubKeyOf keys OP_DATA_33 33 [0x02, 0x03] script).or
    (isPubKeyOf keys OP_DATA_65 65 [0x04] script)

/-! ## Writing -/

/-- `compressedScriptSize`: the number of bytes that a script is compressed to. -/
def compressedScriptSize (keys : PubKeys) (_scriptVersion : ℕ) (pkScript : List UInt8) : ℕ :=
  if (isPubKeyHash pkScript).isSome then 21
  else if (isPubKeyHashAlt pkScript).isSome then 21
  else if (isScriptHash pkScript).isSome then 21
  else if (isPubKey keys pkScript).isSome then 33
  else serializeSizeVLQ (pkScript.length + numSpecialScripts) + pkScript.length

/-- What is put for a key, by the format in its first byte. The last byte of a key with both
coordinates says whether the second one is odd. -/
def putPubKey (key : List UInt8) : Option (List UInt8) :=
  match key.head? with
  | some 0x02 => some (cstPayToPubKeyCompEven :: (key.drop 1).take 32)
  | some 0x03 => some (cstPayToPubKeyCompOdd :: (key.drop 1).take 32)
  | some 0x04 =>
    let odd := key[64]?.any fun last => last &&& 0x01 == 0x01
    some ((if odd then cstPayToPubKeyUncompOdd else cstPayToPubKeyUncompEven) ::
      (key.drop 1).take 32)
  | _ => none

/-- What is put for a script of a special form. -/
def putSpecialScript (keys : PubKeys) (pkScript : List UInt8) : Option (List UInt8) :=
  ((isPubKeyHash pkScript).map (cstPayToPubKeyHash :: ·)).or <|
  ((isScriptHash pkScript).map (cstPayToScriptHash :: ·)).or <|
  ((isPubKey keys pkScript).bind putPubKey).or <|
  (isPubKeyHashAlt pkScript).map fun (hash, tp) =>
    (if tp = 0x05 ∨ tp = 0x55 then cstPayToPubKeyHashLms else cstPayToPubKeyHashBliss) :: hash

/-- `putCompressedScript`: the bytes that are put into a target that is long enough for them. -/
def putCompressedScript (keys : PubKeys) (_scriptVersion : ℕ) (pkScript : List UInt8) :
    List UInt8 :=
  (putSpecialScript keys pkScript).getD (putVLQ (pkScript.length + numSpecialScripts) ++ pkScript)

/-! ## Reading -/

/-- `decodeCompressedScriptSize`: the size of a compressed script, as its first bytes tell it. -/
def decodeCompressedScriptSize (serialized : List UInt8) : ℤ :=
  let (scriptSize, bytesRead) := deserializeVLQ serialized
  if bytesRead = 0 then 0
  else match scriptSize with
    | 0 | 1 | 6 | 7 => 21
    | 2 | 3 | 4 | 5 => 33
    | _ => int64 (scriptSize - numSpecialScripts + bytesRead)

/-- A slice of `n` bytes, which panics where the bytes end before. -/
def sliceAt (bs : List UInt8) (low n : ℕ) : Except DecodeErr (List UInt8) :=
  if low + n ≤ bs.length then .ok ((bs.drop low).take n) else .error .panic

/-- `copy` into `n` zero bytes. -/
def copied (n : ℕ) (bs : List UInt8) : List UInt8 := bs.take n ++ replicate (n - bs.length) 0

/-- The script that pays to a key that was stored by its first coordinate, or nothing if the
coordinate is not one of a key. -/
def decompressPubKey (keys : PubKeys) (oddness : UInt8) (coordinate : List UInt8) : List UInt8 :=
  match keys.parsePubKey (oddness :: copied 32 coordinate) with
  | none => []
  | some key => OP_DATA_65 :: copied 65 (keys.serializeUncompressed key) ++ [OP_CHECKSIG]

/-- `decompressScript`: the script that a compressed one stands for. -/
def decompressScript (keys : PubKeys) (compressedPkScript : List UInt8) :
    Except DecodeErr (List UInt8) :=
  if compressedPkScript = [] then .ok []
  else
    let (encodedScriptSize, bytesRead) := deserializeVLQ compressedPkScript
    match encodedScriptSize with
    | 0 => do
      let hash ← sliceAt compressedPkScript bytesRead 20
      pure ([OP_DUP, OP_HASH160, OP_DATA_20] ++ hash ++ [OP_EQUALVERIFY, OP_CHECKSIG])
    | 1 => do
      let hash ← sliceAt compressedPkScript bytesRead 20
      pure ([OP_HASH160, OP_DATA_20] ++ hash ++ [OP_EQUAL])
    | 2 =>
      do pure ([OP_DATA_33, 0x02] ++ (← sliceAt compressedPkScript bytesRead 32) ++ [OP_CHECKSIG])
    | 3 =>
      do pure ([OP_DATA_33, 0x03] ++ (← sliceAt compressedPkScript bytesRead 32) ++ [OP_CHECKSIG])
    | 4 => .ok (decompressPubKey keys 0x02 (compressedPkScript.drop 1))
    | 5 => .ok (decompressPubKey keys 0x03 (compressedPkScript.drop 1))
    | 6 => do
      let hash ← sliceAt compressedPkScript bytesRead 20
      pure ([OP_DUP, OP_HASH160, OP_DATA_20] ++ hash ++
        [OP_EQUALVERIFY, BSTypeBliss, OP_CHECKSIGALT])
    | 7 => do
      let hash ← sliceAt compressedPkScript bytesRead 20
      pure ([OP_DUP, OP_HASH160, OP_DATA_20] ++ hash ++
        [OP_EQUALVERIFY, LMSTypeLMS, OP_CHECKSIGALT])
    | _ =>
      -- a size below 64 is negative after the subtraction, and no slice of that length is made
      if encodedScriptSize < numSpecialScripts then .error .panic
      else sliceAt compressedPkScript bytesRead (encodedScriptSize - numSpecialScripts)

/-! ## The forms that are recognised -/

/-- What `enclosed` recognises. -/
theorem enclosed_eq_some {front back script mid : List UInt8} {k : ℕ} :
    enclosed front back k script = some mid ↔ mid.length = k ∧ script = front ++ mid ++ back := by
  unfold enclosed
  constructor
  · intro h
    split_ifs at h with hscript
    obtain ⟨hlen, hfront, hback⟩ := hscript
    obtain rfl := Option.some.inj h
    constructor
    · rw [length_take, length_drop]
      omega
    · calc script = script.take (front.length + k) ++ script.drop (front.length + k) :=
        (take_append_drop _ _).symm
        _ = script.take front.length ++ (script.drop front.length).take k ++
          back := by rw [hback, take_add]
        _ = front ++ (script.drop front.length).take k ++ back := by rw [hfront]
  · rintro ⟨rfl, rfl⟩
    rw [if_pos, append_assoc, drop_left, take_left]
    refine ⟨by simp only [length_append], ?_, ?_⟩
    · rw [append_assoc, take_left]
    · rw [← length_append, drop_left]

/-- The scripts of `isPubKeyHashAlt`. -/
theorem isPubKeyHashAlt_eq_some {script hash : List UInt8} :
    isPubKeyHashAlt script = some (hash, tp) ↔ hash.length = 20 ∧ isOneByteMaxDataPush tp = true ∧
      script = [OP_DUP, OP_HASH160, OP_DATA_20] ++ hash ++
        [OP_EQUALVERIFY, tp, OP_CHECKSIGALT] := by
  unfold isPubKeyHashAlt
  constructor
  · intro h
    split at h
    · exact absurd h (by simp)
    · rename_i tp' _
      split_ifs at h with hpush
      obtain ⟨hash', henclosed, hpair⟩ := map_eq_some_iff.1 h
      obtain ⟨rfl, rfl⟩ := Prod.mk.inj hpair
      obtain ⟨hlen, hscript⟩ := enclosed_eq_some.1 henclosed
      exact ⟨hlen, hpush, hscript⟩
  · rintro ⟨hlen, hpush, rfl⟩
    have htp : ([OP_DUP, OP_HASH160, OP_DATA_20] ++ hash ++
        [OP_EQUALVERIFY, tp, OP_CHECKSIGALT])[24]? = some tp := by
      rw [getElem?_append_right (by simp [hlen])]
      simp [hlen]
    rw [htp]
    dsimp only
    rw [if_pos hpush, enclosed_eq_some.2 ⟨hlen, rfl⟩, map_some]

/-- The scripts of the public key checks. -/
theorem isPubKeyOf_eq_some {push : UInt8} {k : ℕ} {formats script key : List UInt8} :
    isPubKeyOf keys push k formats script = some key ↔
    key.length = k ∧ script = [push] ++ key ++ [OP_CHECKSIG] ∧
      (∃ format ∈ formats, key.head? = some format) ∧ (keys.parsePubKey key).isSome = true := by
  unfold isPubKeyOf
  rw [filter_eq_some_iff, enclosed_eq_some, Bool.and_eq_true, Option.any_eq_true, and_assoc]
  simp only [decide_eq_true_eq, and_comm]

/-- What is put for a script, by the form of the script. -/
inductive Puts (keys : PubKeys) : (pkScript compressed : List UInt8) → Prop
  | pubKeyHash {hash : List UInt8} (h : hash.length = 20) :
    Puts keys ([OP_DUP, OP_HASH160, OP_DATA_20] ++ hash ++ [OP_EQUALVERIFY, OP_CHECKSIG])
      (cstPayToPubKeyHash :: hash)
  | scriptHash {hash : List UInt8} (h : hash.length = 20) :
    Puts keys ([OP_HASH160, OP_DATA_20] ++ hash ++ [OP_EQUAL]) (cstPayToScriptHash :: hash)
  | compressedKey {format : UInt8} {x : List UInt8} (hformat : format = 0x02 ∨ format = 0x03)
    (h : x.length = 32) : Puts keys ([OP_DATA_33, format] ++ x ++ [OP_CHECKSIG]) (format :: x)
  | uncompressedKey {x y : List UInt8} {last : UInt8} (hx : x.length = 32) (hy : y.length = 31)
    (hparse : (keys.parsePubKey (0x04 :: x ++ y ++ [last])).isSome) :
    Puts keys ([OP_DATA_65, 0x04] ++ (x ++ y ++ [last]) ++ [OP_CHECKSIG])
      ((if last &&& 0x01 = 0x01 then cstPayToPubKeyUncompOdd else cstPayToPubKeyUncompEven) :: x)
  | pubKeyHashAlt {hash : List UInt8} {tp : UInt8} (h : hash.length = 20)
      (htp : isOneByteMaxDataPush tp = true) :
    Puts keys ([OP_DUP, OP_HASH160, OP_DATA_20] ++ hash ++ [OP_EQUALVERIFY, tp, OP_CHECKSIGALT])
      ((if tp = 0x05 ∨ tp = 0x55 then cstPayToPubKeyHashLms else cstPayToPubKeyHashBliss) :: hash)
  | general (pkScript : List UInt8) (halt : isPubKeyHashAlt pkScript = none) :
    Puts keys pkScript (putVLQ (pkScript.length + numSpecialScripts) ++ pkScript)

/-- A public key script is put compressed. -/
theorem puts_of_isPubKey (h : isPubKey keys pkScript = some key) :
    ∃ compressed, putPubKey key = some compressed ∧ compressed.length = 33 ∧
    Puts keys pkScript compressed := by
  rcases or_eq_some_iff.1 h with hshort | ⟨-, hlong⟩
  · obtain ⟨hlen, rfl, ⟨format, hformat, hhead⟩, -⟩ := isPubKeyOf_eq_some.1 hshort
    obtain ⟨x, rfl⟩ := head?_eq_some_iff.1 hhead
    have hx : x.length = 32 := by simpa using hlen
    have hformat' : format = 0x02 ∨ format = 0x03 := by simpa using hformat
    refine ⟨format :: x, ?_, by rw [length_cons, hx], Puts.compressedKey hformat' hx⟩
    rcases hformat' with rfl | rfl <;>
      simp [putPubKey, hx, cstPayToPubKeyCompEven, cstPayToPubKeyCompOdd]
  · obtain ⟨hlen, rfl, ⟨format, hformat, hhead⟩, hparse⟩ := isPubKeyOf_eq_some.1 hlong
    obtain ⟨xy, rfl⟩ := head?_eq_some_iff.1 hhead
    obtain rfl : format = 0x04 := by simpa using hformat
    have hxy : xy.length = 64 := by simpa using hlen
    -- the two coordinates, the second one without its last byte
    obtain ⟨x, y, last, hx, hy, rfl⟩ :
      ∃ x y last, x.length = 32 ∧ y.length = 31 ∧ xy = x ++ y ++ [last] := by
      have hne : xy.drop 32 ≠ [] := ne_nil_of_length_pos (by rw [length_drop]; omega)
      refine ⟨xy.take 32, (xy.drop 32).dropLast, (xy.drop 32).getLast hne, ?_, ?_, ?_⟩
      · rw [length_take]
        omega
      · rw [length_dropLast, length_drop]
        omega
      · rw [append_assoc, dropLast_append_getLast, take_append_drop]
    have hlast : (0x04 :: (x ++ y ++ [last]))[64]? = some last := by
      rw [getElem?_cons_succ, getElem?_append_right (by simp [hx, hy])]
      simp [hx, hy]
    refine ⟨_, ?_, by rw [length_cons, hx], Puts.uncompressedKey hx hy (by simpa using hparse)⟩
    simp only [putPubKey, head?_cons, hlast, any_some, beq_iff_eq]
    rw [drop_one, tail_cons, append_assoc, take_left' hx]

/-- Every script is put in one of the ways of `Puts`. -/
theorem puts_putCompressedScript (keys : PubKeys) (scriptVersion : ℕ) (pkScript : List UInt8) :
    Puts keys pkScript (putCompressedScript keys scriptVersion pkScript) := by
  unfold putCompressedScript putSpecialScript
  rcases hpkh : isPubKeyHash pkScript with _ | hash
  · rcases hsh : isScriptHash pkScript with _ | hash
    · rcases hpk : isPubKey keys pkScript with _ | key
      · rcases halt : isPubKeyHashAlt pkScript with _ | ⟨hash, tp⟩
        · exact Puts.general pkScript halt
        · obtain ⟨hlen, hpush, rfl⟩ := isPubKeyHashAlt_eq_some.1 halt
          exact Puts.pubKeyHashAlt hlen hpush
      · obtain ⟨compressed, hput, -, hputs⟩ := puts_of_isPubKey hpk
        simpa [hput] using hputs
    · obtain ⟨hlen, rfl⟩ := enclosed_eq_some.1 hsh
      exact Puts.scriptHash hlen
  · obtain ⟨hlen, rfl⟩ := enclosed_eq_some.1 hpkh
    exact Puts.pubKeyHash hlen

theorem isPubKeyHashAlt_of_length {script : List UInt8} (h : script.length ≠ 26) :
    isPubKeyHashAlt script = none := by
  rw [eq_none_iff_forall_ne_some]
  rintro ⟨hash, tp⟩ halt
  obtain ⟨hhash, -, rfl⟩ := isPubKeyHashAlt_eq_some.1 halt
  exact h (by simp [hhash])

theorem isPubKeyHashAlt_of_isPubKey (h : isPubKey keys pkScript = some key) :
    isPubKeyHashAlt pkScript = none := by
  apply isPubKeyHashAlt_of_length
  rcases or_eq_some_iff.1 h with hkey | ⟨-, hkey⟩ <;>
  · obtain ⟨hlen, rfl, -, -⟩ := isPubKeyOf_eq_some.1 hkey
    simp [hlen]

/-- The number of bytes that is computed in advance is the number of bytes that is put. The two
functions try the forms in different orders, and a script has only one form. -/
theorem length_putCompressedScript (keys : PubKeys) (scriptVersion : ℕ) (pkScript : List UInt8) :
    (putCompressedScript keys scriptVersion pkScript).length =
      compressedScriptSize keys scriptVersion pkScript := by
  unfold putCompressedScript putSpecialScript compressedScriptSize
  rcases hpkh : isPubKeyHash pkScript with _ | hash
  · rcases hsh : isScriptHash pkScript with _ | hash
    · rcases hpk : isPubKey keys pkScript with _ | key
      · rcases halt : isPubKeyHashAlt pkScript with _ | ⟨hash, tp⟩
        · simp
        · simp [(isPubKeyHashAlt_eq_some.1 halt).1]
      · obtain ⟨compressed, hput, hlen, -⟩ := puts_of_isPubKey hpk
        simp [hput, isPubKeyHashAlt_of_isPubKey hpk, hlen]
    · simp [(enclosed_eq_some.1 hsh).1]
  · simp [(enclosed_eq_some.1 hpkh).1]

/-! ## What the reader makes of them -/

theorem tag_bits :
    ∀ tag : UInt8, tag < 0x80 → tag &&& 0x7f = tag ∧ tag &&& 0x80 ≠ 0x80 := by decide +kernel

theorem deserializeVLQ_tag (h : tag < 0x80) (rest : List UInt8) :
    deserializeVLQ (tag :: rest) = (tag.toNat, 1) := by
  obtain ⟨hlow, hhigh⟩ := tag_bits tag h
  have hlt := tag.toNat_lt
  rw [deserializeVLQ, readVlq, readVlqFrom, hlow, if_pos hhigh, Nat.zero_mul, Nat.zero_add,
    Nat.zero_add, Nat.mod_eq_of_lt (by omega)]

/-- How many bytes follow a tag: a coordinate or a hash. -/
def tagged (tag : UInt8) : ℕ := if 2 ≤ tag ∧ tag < 6 then 32 else 20

/-- The size of a script with a special tag. -/
theorem decodeCompressedScriptSize_tag (htag : tag < 8) (rest : List UInt8) :
    decodeCompressedScriptSize (tag :: rest) = tagged tag + 1 := by
  have hlt : tag < 0x80 := UInt8.lt_trans htag (by decide)
  unfold decodeCompressedScriptSize
  rw [deserializeVLQ_tag hlt]
  clear hlt
  revert tag
  decide +kernel

theorem decodeCompressedScriptSize_of_le
    (h : deserializeVLQ serialized = (n, bytesRead)) (hread : bytesRead ≠ 0) (hn : 8 ≤ n) :
    decodeCompressedScriptSize serialized = int64 (n - numSpecialScripts + bytesRead) := by
  unfold decodeCompressedScriptSize
  rw [h]
  dsimp only
  rw [if_neg hread]
  split <;> omega

/-- What is put for a script is a tag and the hash or the coordinate that it asks for, or a length
and a script. -/
theorem Puts.tagged_or_general (h : Puts keys pkScript compressed) :
    (∃ tag body, tag < 8 ∧ body.length = tagged tag ∧ compressed = tag :: body) ∨
      compressed = putVLQ (pkScript.length + numSpecialScripts) ++ pkScript := by
  cases h with
  | pubKeyHash h | scriptHash h => exact Or.inl ⟨_, _, by decide, h, rfl⟩
  | compressedKey hformat h =>
    rcases hformat with rfl | rfl <;> exact Or.inl ⟨_, _, by decide, h, rfl⟩
  | uncompressedKey h _ _ | pubKeyHashAlt h _ =>
    split_ifs <;> exact Or.inl ⟨_, _, by decide, h, rfl⟩
  | general _ halt => exact Or.inr rfl

theorem decodeCompressedScriptSize_putVLQ_append
    (hn : serializeSizeVLQ (n + numSpecialScripts) + n < 2^63) (rest : List UInt8) :
    decodeCompressedScriptSize (putVLQ (n + numSpecialScripts) ++ rest)
      = (serializeSizeVLQ (n + numSpecialScripts) + n : ℕ) := by
  have hpos := serializeSizeVLQ_pos (n + numSpecialScripts)
  have hbound : n + numSpecialScripts < 2^64 := by
    unfold numSpecialScripts
    omega
  rw [decodeCompressedScriptSize_of_le (deserializeVLQ_putVLQ_append hbound _) hpos.ne'
    (by unfold numSpecialScripts; omega)]
  push_cast
  rw [int64_of_range (by omega) (by omega)]
  omega

/-- The size that is decoded is the size that was put. -/
theorem Puts.decodeCompressedScriptSize_append
    (h : Puts keys pkScript compressed) (hlen : compressed.length < 2^63) (suffix : List UInt8) :
    decodeCompressedScriptSize (compressed ++ suffix) = compressed.length := by
  rcases h.tagged_or_general with ⟨tag, body, htag, hbody, rfl⟩ | rfl
  · rw [cons_append, decodeCompressedScriptSize_tag htag, length_cons, hbody]
    rfl
  · rw [length_append, length_putVLQ] at hlen
    rw [append_assoc, decodeCompressedScriptSize_putVLQ_append hlen, length_append, length_putVLQ]

/-- What is put for a script, when it is cut off, says that more bytes follow, or has a length that
is negative after the subtraction, or is taken for a script of at most one byte less than there
are. -/
theorem Puts.decodeCompressedScriptSize_cut {pkScript compressed cut : List UInt8}
    (h : Puts keys pkScript compressed) (hlen : compressed.length < 2^63)
    (hcut : Cut cut compressed) (hnil : cut ≠ []) :
    decodeCompressedScriptSize cut < 0 ∨ cut.length < decodeCompressedScriptSize cut ∨
      0 ≤ decodeCompressedScriptSize cut ∧ decodeCompressedScriptSize cut ≤ cut.length ∧
        cut.length ≤ decodeCompressedScriptSize cut + 1 := by
  have hlt := hcut.length_lt
  rcases h.tagged_or_general with ⟨tag, body, htag, hbody, rfl⟩ | rfl
  · obtain ⟨b, cut, rfl⟩ := exists_cons_of_ne_nil hnil
    obtain ⟨rfl, -⟩ := cons_prefix_cons.1 hcut.isPrefix
    rw [decodeCompressedScriptSize_tag htag]
    rw [length_cons, length_cons, hbody] at hlt
    refine Or.inr (Or.inl ?_)
    rw [length_cons]
    push_cast
    omega
  · rw [length_append, length_putVLQ] at hlen hlt
    have hbound : pkScript.length + numSpecialScripts < 2^64 := by
      unfold numSpecialScripts
      omega
    rcases hcut.append_cases with hcut | ⟨rest, rfl, -⟩
    · -- the bytes end in the length
      obtain ⟨m, hread, hpos, hm, htwo⟩ := exists_deserializeVLQ_of_cut hbound hcut hnil
      have hshort : cut.length ≤ 10 :=
        hcut.isPrefix.length_le.trans ((length_putVLQ _).trans_le (vlqSize_le 10 _))
      have hcutpos := length_pos_of_ne_nil hnil
      rcases Nat.lt_or_ge m 8 with htag | hle
      · have hhash : 21 ≤ decodeCompressedScriptSize cut := by
          unfold decodeCompressedScriptSize
          rw [hread]
          dsimp only
          rw [if_neg hcutpos.ne']
          interval_cases m <;> norm_num
        omega
      · rw [decodeCompressedScriptSize_of_le hread hcutpos.ne' hle]
        unfold numSpecialScripts at *
        rw [int64_of_range (by push_cast; omega) (by push_cast; omega)]
        push_cast
        omega
    · rw [decodeCompressedScriptSize_putVLQ_append hlen]
      rw [length_append, length_putVLQ] at hlt ⊢
      refine Or.inr (Or.inl ?_)
      exact_mod_cast hlt

theorem sliceAt_one (h : body.length = n) : sliceAt (tag :: body) 1 n = .ok body := by
  rw [sliceAt, if_pos (by rw [length_cons]; omega), drop_one, tail_cons, take_of_length_le h.le]

/-- What is assumed of the curve: a key is determined by its first coordinate and whether the second
one is odd, and both coordinates are written again as they were. -/
def PubKeys.Restores (keys : PubKeys) : Prop := ∀ (x y : List UInt8) (last : UInt8),
  x.length = 32 → y.length = 31 → (keys.parsePubKey (0x04 :: x ++ y ++ [last])).isSome →
    ∃ key, keys.parsePubKey ((if last &&& 0x01 = 0x01 then 0x03 else 0x02) :: x) = some key ∧
      keys.serializeUncompressed key = 0x04 :: x ++ y ++ [last]

theorem restored_byte_ne (h : isOneByteMaxDataPush tp = true) :
    tp ≠ BSTypeBliss ∧ tp ≠ LMSTypeLMS := by
  revert tp
  decide +kernel

/-- The script that is built from a tag and what follows it. -/
def rebuilt (keys : PubKeys) (tag : UInt8) (body : List UInt8) : List UInt8 :=
  match tag with
  | 0 => [OP_DUP, OP_HASH160, OP_DATA_20] ++ body ++ [OP_EQUALVERIFY, OP_CHECKSIG]
  | 1 => [OP_HASH160, OP_DATA_20] ++ body ++ [OP_EQUAL]
  | 2 => [OP_DATA_33, 0x02] ++ body ++ [OP_CHECKSIG]
  | 3 => [OP_DATA_33, 0x03] ++ body ++ [OP_CHECKSIG]
  | 4 => decompressPubKey keys 0x02 body
  | 5 => decompressPubKey keys 0x03 body
  | 6 => [OP_DUP, OP_HASH160, OP_DATA_20] ++ body ++ [OP_EQUALVERIFY, BSTypeBliss, OP_CHECKSIGALT]
  | _ => [OP_DUP, OP_HASH160, OP_DATA_20] ++ body ++ [OP_EQUALVERIFY, LMSTypeLMS, OP_CHECKSIGALT]

theorem tag_cases : ∀ tag : UInt8, tag < 8 →
    tag = 0 ∨ tag = 1 ∨ tag = 2 ∨ tag = 3 ∨ tag = 4 ∨ tag = 5 ∨ tag = 6 ∨ tag = 7 := by
  decide +kernel

/-- A tagged script is rebuilt from its body. -/
theorem decompressScript_tag (keys : PubKeys) (htag : tag < 8) (hbody : body.length = tagged tag) :
    decompressScript keys (tag :: body) = .ok (rebuilt keys tag body) := by
  have hlt : tag < 0x80 := UInt8.lt_trans htag (by decide)
  rw [decompressScript, if_neg (cons_ne_nil _ _), deserializeVLQ_tag hlt]
  have hread : ∀ (n : ℕ) (build : List UInt8 → List UInt8), tagged tag = n →
      (sliceAt (tag :: body) 1 n >>= fun bs => pure (build bs)) = .ok (build body) := by
    intro n build hn
    rw [sliceAt_one (hbody.trans hn), ok_bind]
    rfl
  rcases tag_cases tag htag with rfl | rfl | rfl | rfl | rfl | rfl | rfl | rfl
  · exact hread 20 (rebuilt keys 0) rfl
  · exact hread 20 (rebuilt keys 1) rfl
  · exact hread 32 (rebuilt keys 2) rfl
  · exact hread 32 (rebuilt keys 3) rfl
  · rfl
  · rfl
  · exact hread 20 (rebuilt keys 6) rfl
  · exact hread 20 (rebuilt keys 7) rfl

theorem copied_of_length (h : bs.length = n) : copied n bs = bs := by
  rw [copied, h, Nat.sub_self, replicate_zero, append_nil, take_of_length_le h.le]

/-- A script is restored unless it pays to a key hash of another signature type. -/
theorem Puts.decompressScript_eq_ok (hkeys : keys.Restores)
    (h : Puts keys pkScript compressed) (hlen : compressed.length < 2^63) :
    decompressScript keys compressed = .ok pkScript ↔ isPubKeyHashAlt pkScript = none := by
  cases h with
  | pubKeyHash h | scriptHash h =>
    exact iff_of_true (decompressScript_tag keys (by decide) h)
      (isPubKeyHashAlt_of_length (by simp [h]))
  | compressedKey hformat h =>
    refine iff_of_true ?_ (isPubKeyHashAlt_of_length (by simp [h]))
    rcases hformat with rfl | rfl <;> exact decompressScript_tag keys (by decide) h
  | @uncompressedKey x y last hx hy hparse =>
    refine iff_of_true ?_ (isPubKeyHashAlt_of_length (by simp [hx, hy]))
    obtain ⟨key, hkey, hserialize⟩ := hkeys x y last hx hy hparse
    have hlength : (0x04 :: x ++ y ++ [last]).length = 65 := by simp [hx, hy]
    have hscript : OP_DATA_65 :: (0x04 :: x ++ y ++ [last]) ++ [OP_CHECKSIG]
        = [OP_DATA_65, 0x04] ++ (x ++ y ++ [last]) ++ [OP_CHECKSIG] := by simp
    have hwritten : ∀ oddness, keys.parsePubKey (oddness :: x) = some key →
        decompressPubKey keys oddness x = OP_DATA_65 :: (0x04 :: x ++ y ++ [last]) ++
          [OP_CHECKSIG] := by
      intro oddness hparse
      rw [decompressPubKey, copied_of_length hx, hparse]
      dsimp only
      rw [hserialize, copied_of_length hlength]
    rw [← hscript]
    split_ifs at hkey ⊢ with hodd <;> rw [← hwritten _ hkey] <;>
      exact decompressScript_tag keys (by decide) hx
  | @pubKeyHashAlt hash tp h htp =>
    obtain ⟨hbliss, hlms⟩ := restored_byte_ne htp
    rw [isPubKeyHashAlt_eq_some.2 ⟨h, htp, rfl⟩]
    refine iff_of_false ?_ (by simp)
    -- what is rebuilt has another byte before the last one
    split_ifs
    · rw [decompressScript_tag keys (by decide) h]
      intro heq
      have hend := append_cancel_left (Except.ok.inj heq)
      exact hlms (by simpa using hend.symm)
    · rw [decompressScript_tag keys (by decide) h]
      intro heq
      have hend := append_cancel_left (Except.ok.inj heq)
      exact hbliss (by simpa using hend.symm)
  | general _ halt =>
    rw [length_append, length_putVLQ] at hlen
    have hbound : pkScript.length + numSpecialScripts < 2^64 := by
      unfold numSpecialScripts
      omega
    refine iff_of_true ?_ halt
    have hlong : numSpecialScripts ≤ pkScript.length + numSpecialScripts := Nat.le_add_left _ _
    have hlong' : 64 ≤ pkScript.length + numSpecialScripts := hlong
    rw [decompressScript, if_neg (putVLQ_append_ne_nil _ _), deserializeVLQ_putVLQ_append hbound]
    dsimp only
    split <;> first | omega | rw [if_neg (not_lt.2 hlong)]
    rw [Nat.add_sub_cancel, sliceAt, length_append, length_putVLQ, if_pos le_rfl, ← length_putVLQ,
      drop_left, take_length]

/-! ## Round trips -/

/-- What the compression of a script is to be: the number of bytes is known in advance, can be read
off the bytes when others follow, and the script comes back from them. -/
structure RoundTrips (keys : PubKeys) (scriptVersion : ℕ) (pkScript : List UInt8) : Prop where
  size : (putCompressedScript keys scriptVersion pkScript).length =
    compressedScriptSize keys scriptVersion pkScript
  decodedSize :
    ∀ suffix, decodeCompressedScriptSize (putCompressedScript keys scriptVersion pkScript ++ suffix)
    = compressedScriptSize keys scriptVersion pkScript
  restored : decompressScript keys (putCompressedScript keys scriptVersion pkScript) = .ok pkScript

/-- A script, whose compressed form has a length that is an `int`, makes the round trip exactly when
it is not one that pays to a hash under another signature type. -/
theorem roundTrips_iff_isPubKeyHashAlt_eq_none {keys : PubKeys} (hkeys : keys.Restores)
    (scriptVersion : ℕ)
    (pkScript : List UInt8) (hsize : compressedScriptSize keys scriptVersion pkScript < 2^63) :
    RoundTrips keys scriptVersion pkScript ↔ isPubKeyHashAlt pkScript = none := by
  have hputs := puts_putCompressedScript keys scriptVersion pkScript
  have hlength := length_putCompressedScript keys scriptVersion pkScript
  have hback := hputs.decompressScript_eq_ok hkeys (hlength.trans_lt hsize)
  constructor
  · intro h
    exact hback.1 h.restored
  · intro halt
    refine ⟨hlength, fun suffix => ?_, hback.2 halt⟩
    rw [hputs.decodeCompressedScriptSize_append (hlength.trans_lt hsize), hlength]

/-- Keys of one coordinate and a bit. -/
def sampleKeys : PubKeys where
  Key := List UInt8 × UInt8
  parsePubKey
    | 0x02 :: x => some (x, 0)
    | 0x03 :: x => some (x, 1)
    | 0x04 :: xy =>
      if xy.drop 32 = replicate 31 0 ++ [0] then some (xy.take 32, 0)
      else if xy.drop 32 = replicate 31 0 ++ [1] then some (xy.take 32, 1)
      else none
    | _ => none
  serializeUncompressed key := 0x04 :: key.1 ++ replicate 31 0 ++ [key.2]

/-- The sample keys come back. -/
theorem restores_sampleKeys : sampleKeys.Restores := by
  intro x y last hx hy hparse
  have hdrop : (x ++ y ++ [last]).drop 32 = y ++ [last] := by rw [append_assoc, drop_left' hx]
  simp only [sampleKeys, cons_append, hdrop] at hparse
  split_ifs at hparse with h0 h1
  · obtain ⟨rfl, hlast⟩ := append_inj' h0 rfl
    obtain rfl := singleton_inj.1 hlast
    exact ⟨(x, 0), rfl, rfl⟩
  · obtain ⟨rfl, hlast⟩ := append_inj' h1 rfl
    obtain rfl := singleton_inj.1 hlast
    exact ⟨(x, 1), rfl, rfl⟩
  · exact absurd hparse (by simp)

/-- A script that pays to a key with both coordinates. -/
def sampleKeyScript : List UInt8 :=
  [OP_DATA_65, 0x04] ++ (replicate 32 7 ++ replicate 31 0 ++ [1]) ++ [OP_CHECKSIG]

/-- A script with a public key comes back. -/
theorem roundTrips_sampleKeyScript :
    sampleKeys.Restores ∧ compressedScriptSize sampleKeys 0 sampleKeyScript = 33 ∧
    RoundTrips sampleKeys 0 sampleKeyScript := by
  have hsize : compressedScriptSize sampleKeys 0 sampleKeyScript = 33 := by decide +kernel
  refine ⟨restores_sampleKeys, hsize, ?_⟩
  exact (roundTrips_iff_isPubKeyHashAlt_eq_none restores_sampleKeys 0 sampleKeyScript
    (by rw [hsize]; norm_num)).2 (by decide +kernel)

/-- A hash that is paid to under the signature type that `OP_4` pushes comes back under one that is
pushed by the next four bytes, of which there is only one. -/
theorem exists_decompressScript_ne : ∃ hash : List UInt8,
    let pkScript :=
      [OP_DUP, OP_HASH160, OP_DATA_20] ++ hash ++ [OP_EQUALVERIFY, 0x54, OP_CHECKSIGALT]
    sampleKeys.Restores ∧ isPubKeyHashAlt pkScript = some (hash, 0x54) ∧
      decompressScript sampleKeys (putCompressedScript sampleKeys 0 pkScript) =
        .ok ([OP_DUP, OP_HASH160, OP_DATA_20] ++ hash ++ [OP_EQUALVERIFY, 0x04, OP_CHECKSIGALT]) ∧
      ¬ RoundTrips sampleKeys 0 pkScript := by
  refine ⟨replicate 20 7, restores_sampleKeys, by decide +kernel, by decide +kernel, fun h => ?_⟩
  exact absurd h.restored (by decide +kernel)

end Hcashd.Blockchain
