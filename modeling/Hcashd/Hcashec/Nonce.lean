import Hcashd.Lib.Der

/-!
# Deterministic nonces

`NonceRFC6979` of secp256k1 and of edwards are the same function over two orders. The nonce comes
from a seed: the private key, the message hash, and the extra data and the version as their lengths
allow. With 32 bytes of extra data a version only has the extra data appended again, and two of the
three schemes of secp256k1 pass neither, so that requests that differ share their nonce.
`seedsDiffer_iff` says which requests are told apart.
-/

namespace Hcashd.Hcashec

open Lib

/-- `int2octets`: zeros fill up a short number, and the most significant bytes of a long one are
dropped. -/
def int2octets (v rolen : ℕ) : List UInt8 := beBytes rolen v

/-- `BitLen` of a number that is not zero. -/
def bitLen (q : ℕ) : ℕ := q.log2 + 1

/-- The bytes of the order. -/
def rolen (q : ℕ) : ℕ := (bitLen q + 7) / 8

/-- `hashToInt`: the leftmost bits of a hash, as many as the order has. -/
def hashToInt (q : ℕ) (hash : List UInt8) : ℕ :=
  ofBeBytes (hash.take (rolen q)) >>> ((hash.take (rolen q)).length * 8 - bitLen q)

/-- `bits2octets`: that number modulo the order, in octets. -/
def bits2octets (q : ℕ) (hash : List UInt8) : List UInt8 :=
  let z1 := hashToInt q hash
  if z1 < q then int2octets z1 (rolen q) else int2octets (z1 - q) (rolen q)

/-- The seed `bx` of `NonceRFC6979`. With both, the extra data come twice and the version does not
come. -/
def seed (q x : ℕ) (hash extra version : List UInt8) : List UInt8 :=
  let bx := int2octets x (rolen q) ++ bits2octets q hash
  let bx := if extra.length = 32 then bx ++ extra else bx
  let bx := if version.length = 16 ∧ extra.length = 32 then bx ++ extra else bx
  if version.length = 16 ∧ extra.length ≠ 32 then bx ++ List.replicate 32 0 ++ version else bx

section Generator

variable (mac : List UInt8 → List UInt8 → List UInt8)

/-- `NonceRFC6979`, the steps B to G. -/
def initialState (bx : List UInt8) : List UInt8 × List UInt8 :=
  let v := List.replicate 32 1
  let k := mac (List.replicate 32 0) (v ++ 0 :: bx)
  let v := mac k v
  let k := mac k (v ++ 1 :: bx)
  (k, mac k v)

/-- `NonceRFC6979`, the step H. A code of 32 bytes has enough bits for either order. -/
def nextNonce (q : ℕ) : ℕ → List UInt8 × List UInt8 → Option ℕ
  | 0, _ => none
  | fuel + 1, (k, v) =>
    let v := mac k v
    let secret := hashToInt q v
    if 1 ≤ secret ∧ secret < q then some secret
    else
      let k := mac k (v ++ [0])
      nextNonce q fuel (k, mac k v)

/-- `NonceRFC6979`: the nonce of a key and a hash. -/
def nonceRFC6979 (fuel q x : ℕ) (hash extra version : List UInt8) : Option ℕ :=
  nextNonce mac q fuel (initialState mac (seed q x hash extra version))

end Generator

/-! ## The seed tells its parts apart -/

/-- A hash is less than twice the order. -/
theorem hashToInt_lt {q : ℕ} (hq : q ≠ 0) (hash : List UInt8) : hashToInt q hash < 2 * q := by
  have hvalue := ofBeBytes_lt (hash.take (rolen q))
  rw [show 256 = 2 ^ 8 from rfl, ← pow_mul] at hvalue
  have hbits : hashToInt q hash < 2 ^ bitLen q := by
    rw [hashToInt, Nat.shiftRight_eq_div_pow]
    apply Nat.div_lt_of_lt_mul
    rw [← pow_add]
    exact hvalue.trans_le (Nat.pow_le_pow_right two_pos (by omega))
  have hlog := Nat.log2_self_le hq
  rw [bitLen, pow_succ] at hbits
  omega

/-- `bits2octets` reduces the hash modulo the order. -/
theorem bits2octets_eq {q : ℕ} (hq : q ≠ 0) (hash : List UInt8) :
    bits2octets q hash = int2octets (hashToInt q hash % q) (rolen q) := by
  have hlt := hashToInt_lt hq hash
  rw [bits2octets]
  split_ifs with h
  · rw [Nat.mod_eq_of_lt h]
  · rw [Nat.mod_eq_sub_mod (not_lt.1 h), Nat.mod_eq_of_lt (by omega)]

/-- Numbers below the order have different octets. -/
theorem int2octets_inj {q a b : ℕ} (ha : a < q) (hb : b < q) :
    int2octets a (rolen q) = int2octets b (rolen q) ↔ a = b := by
  refine ⟨fun h => ?_, fun h => h ▸ rfl⟩
  have hq : q < 256 ^ rolen q := by
    rw [show 256 = 2 ^ 8 from rfl, ← pow_mul]
    exact Nat.lt_log2_self.trans_le (Nat.pow_le_pow_right two_pos (by rw [rolen, bitLen]; omega))
  have hvalues := congrArg ofLeBytes (List.reverse_injective h)
  rwa [ofLeBytes_leBytes, ofLeBytes_leBytes, Nat.mod_eq_of_lt (ha.trans hq),
    Nat.mod_eq_of_lt (hb.trans hq)] at hvalues

/-- What follows the key and the hash in a seed. -/
def seedTail (extra version : List UInt8) : List UInt8 :=
  if extra.length = 32 then if version.length = 16 then extra ++ extra else extra
  else if version.length = 16 then List.replicate 32 0 ++ version else []

theorem seed_eq (q x : ℕ) (hash extra version : List UInt8) : seed q x hash extra version =
    int2octets x (rolen q) ++ (bits2octets q hash ++ seedTail extra version) := by
  unfold seed seedTail
  by_cases he : extra.length = 32 <;> by_cases hv : version.length = 16 <;> simp [he, hv]

/-- Data of the length that is asked for. -/
def present (n : ℕ) (bs : List UInt8) : Option (List UInt8) :=
  if bs.length = n then some bs else none

/-- The four kinds of tails have four lengths. -/
theorem seedTail_inj {extra version extra' version' : List UInt8} :
    seedTail extra version = seedTail extra' version' ↔ present 32 extra = present 32 extra' ∧
      (present 16 version = present 16 version' ∨
        present 32 extra ≠ none ∧ (present 16 version).isSome = (present 16 version').isSome) := by
  unfold seedTail present
  constructor
  · intro h
    have hlength := congrArg List.length h
    grind [List.append_inj]
  · grind

/-! ## Signing requests -/

/-- The curves that nonces are made for. -/
inductive Curve
  | secp256k1
  | edwards

/-- The order of the base point. -/
def Curve.order : Curve → ℕ
  | secp256k1 => 0xFFFFFFFFFFFFFFFFFFFFFFFFFFFFFFFEBAAEDCE6AF48A03BBFD25E8CD0364141
  | edwards => 2 ^ 252 + 27742317777372353535851937790883648493

/-- The callers of `NonceRFC6979`: `signRFC6979`, `Sign` of schnorr, `GenerateNoncePair` of either
curve and `Sign` of edwards with a scalar. -/
inductive Scheme : Curve → Type
  | ecdsa : Scheme .secp256k1
  | schnorr : Scheme .secp256k1
  | noncePair (c : Curve) : Scheme c
  | edwards : Scheme .edwards

/-- The number that a caller passes for a private key. `Sign` of edwards has turned the bytes
around. -/
def Scheme.scalar (d : ℕ) {c : Curve} : Scheme c → ℕ
  | edwards => ofBeBytes (int2octets d 32).reverse
  | _ => d

/-- A request for a nonce, with the caller that makes it. -/
structure Request (c : Curve) where
  scheme : Scheme c
  hash : List UInt8
  extra : List UInt8
  version : List UInt8
  -- Only `GenerateNoncePair` passes on extra data and a version.
  nil : scheme ≠ .noncePair c → extra = [] ∧ version = []

namespace Request

variable {c : Curve}

/-- The seed of a request. -/
def seed (d : ℕ) (r : Request c) : List UInt8 :=
  Hcashec.seed c.order (r.scheme.scalar d) r.hash r.extra r.version

/-- The nonce of a request. -/
def nonce (mac : List UInt8 → List UInt8 → List UInt8) (fuel d : ℕ) (r : Request c) : Option ℕ :=
  nonceRFC6979 mac fuel c.order (r.scheme.scalar d) r.hash r.extra r.version

/-- The requests differ in the scheme, in the message hash modulo the order, in the 32 bytes of
extra data or in the 16 bytes of the version. -/
def Differs (r r' : Request c) : Prop :=
  r.scheme ≠ r'.scheme ∨ ofBeBytes r.hash % c.order ≠ ofBeBytes r'.hash % c.order ∨
    present 32 r.extra ≠ present 32 r'.extra ∨ present 16 r.version ≠ present 16 r'.version

/-- The requests differ in the octets of the key, in what is left of the hash, in the extra data, or
in the version: without extra data in its bytes, and with them in whether there is one. -/
def Separated (d : ℕ) (r r' : Request c) : Prop :=
  int2octets (r.scheme.scalar d) (rolen c.order) ≠ int2octets (r'.scheme.scalar d) (rolen c.order) ∨
    hashToInt c.order r.hash % c.order ≠ hashToInt c.order r'.hash % c.order ∨
    present 32 r.extra ≠ present 32 r'.extra ∨
    present 16 r.version ≠ present 16 r'.version ∧
      (present 32 r.extra = none ∨ (present 16 r.version).isSome ≠ (present 16 r'.version).isSome)

/-- Two requests have different seeds iff they are separated. -/
theorem seed_ne_iff (d : ℕ) (r r' : Request c) : r.seed d ≠ r'.seed d ↔ r.Separated d r' := by
  have hpos : 0 < c.order := by cases c <;> decide
  have hlength (v : ℕ) : (int2octets v (rolen c.order)).length = rolen c.order := by
    rw [int2octets, beBytes, List.length_reverse, length_leBytes]
  have happend {v v' : ℕ} {t t' : List UInt8} :
      int2octets v (rolen c.order) ++ t = int2octets v' (rolen c.order) ++ t' ↔
        int2octets v (rolen c.order) = int2octets v' (rolen c.order) ∧ t = t' :=
    ⟨fun h => List.append_inj h ((hlength v).trans (hlength v').symm), fun h => h.1 ▸ h.2 ▸ rfl⟩
  rw [seed, seed, seed_eq, seed_eq, bits2octets_eq hpos.ne', bits2octets_eq hpos.ne', Ne,
    happend, happend,
    int2octets_inj (Nat.mod_lt _ hpos) (Nat.mod_lt _ hpos), seedTail_inj, Separated]
  tauto

/-- Signing requests of one key that differ have different seeds if and only if they are
separated. -/
theorem seedsDiffer_iff (d : ℕ) (r r' : Request c) :
    (r.Differs r' → r.seed d ≠ r'.seed d) ↔ (r.Differs r' → r.Separated d r') := by
  rw [seed_ne_iff]

/-- An ECDSA and a Schnorr signature of the same hash have the same nonce, whatever the key is. -/
theorem exists_nonce_shared : ∃ r r' : Request .secp256k1, r.Differs r' ∧
    ∀ mac fuel d, r.seed d = r'.seed d ∧ r.nonce mac fuel d = r'.nonce mac fuel d :=
  ⟨⟨.ecdsa, List.replicate 32 1, [], [], fun _ => ⟨rfl, rfl⟩⟩,
    ⟨.schnorr, List.replicate 32 1, [], [], fun _ => ⟨rfl, rfl⟩⟩, .inl nofun, fun _ _ _ =>
      ⟨rfl, rfl⟩⟩

end Request

end Hcashd.Hcashec
