import Hcashd.Stake.Pool
import Hcashd.Stake.TicketDb

/-!
# The ticket database stores the stake node

What the database holds for a stake node is `Stores`: the buckets of tickets are the images of the
three treaps, the log and the new tickets are at the node's height with nothing above it, and the
best state is that of the node. The two loops over a log write its moves into the buckets, forwards
and backwards (`Move.written`, `Move.unwritten`, lifted to the whole log by `Reverses.replay`), so
connecting and disconnecting keep the relation, and loading reads the node back.
-/

namespace Hcashd.Stake

open Lib List Std.ExtTreeMap UndoTicketData TicketBuckets

/-! ## Reading back what was written -/

/-- The heights of a ticket fit in the fields of its record. -/
def Value.Fits (v : Value) : Prop := v.height < 2^32 ∧ v.keyHeight < 2^32

theorem undoBitFlagsFromByte_undoBitFlagsToByte (missed revoked spent expired : Bool) :
    undoBitFlagsFromByte (undoBitFlagsToByte missed revoked spent expired) =
      (missed, revoked, spent, expired) := by
  cases missed <;> cases revoked <;> cases spent <;> cases expired <;> decide

/-- A ticket comes back. -/
theorem deserializeTicket_serializeTicket {v : Value} (h : v.Fits) :
    deserializeTicket (serializeTicket v) = v := by
  obtain ⟨hheight, hkeyHeight⟩ := h
  rw [deserializeTicket, serializeTicket, append_assoc]
  simp only [readUint_append (k := 4) hheight, readUint_append (k := 4) hkeyHeight, headD_cons,
    undoBitFlagsFromByte_undoBitFlagsToByte]

variable {u : UndoTicketData} {k : Hash} {t : TicketBuckets} {x y : Pools}

/-- An undo record comes back. -/
theorem deserializeUndo_serializeUndo (h : u.value.Fits) :
    deserializeUndo (serializeUndo u) = u := by
  obtain ⟨hheight, hkeyHeight⟩ := h
  rw [deserializeUndo, serializeUndo, append_assoc, append_assoc]
  simp only [Hash.read_append,
    readUint_append (k := 4) (show u.ticketHeight < 256 ^ 4 from hheight),
    readUint_append (k := 4) (show u.ticketKeyHeight < 256 ^ 4 from hkeyHeight), headD_cons,
    undoBitFlagsFromByte_undoBitFlagsToByte]

/-- Records of one size come back one by one. -/
theorem deserializeRecords_flatMap {α : Type} {size : ℕ} {encode : α → List UInt8}
    {decode : List UInt8 → α} {xs : List α} (hsize : 0 < size)
    (hlength : ∀ x ∈ xs, (encode x).length = size) (hdecode : ∀ x ∈ xs, decode (encode x) = x) :
    deserializeRecords size decode (xs.flatMap encode) = .ok xs := by
  have hlen := length_flatMap_of_length hlength
  unfold deserializeRecords
  rw [hlen]
  cases xs with
  | nil => simp
  | cons x xs =>
    have hmul : size ≤ (x :: xs).length * size := Nat.le_mul_of_pos_left _ (by simp)
    have hread := decodeRecords_flatMap hlength hdecode []
    rw [append_nil] at hread
    rw [if_neg (by omega)]
    simp only [bind_eq_ok, rejectIf_eq_ok, pure_eq_ok, not_lt, not_not, exists_const]
    exact ⟨hmul, Nat.mul_mod_left _ _, by rw [Nat.mul_div_cancel _ hsize, hread]⟩

/-- The best state fits in the fields of its record. -/
structure BestChainState.Fits (s : BestChainState) : Prop where
  height : s.height < 2^32
  keyHeight : s.keyHeight < 2^32
  live : s.live < 2^32
  missed : s.missed < 2^64
  revoked : s.revoked < 2^64
  perBlock : s.perBlock < 2^16
  winners : s.nextWinners.length = s.perBlock

/-- The best state comes back. -/
theorem deserializeBestChainState_serialize {s : BestChainState} (h : s.Fits) :
    deserializeBestChainState (serializeBestChainState s) = .ok s := by
  have hwinners :
      decodeRecords 32 Hash.ofBytes s.nextWinners.length (s.nextWinners.flatMap Hash.bytes ++
        replicate (32 * (s.perBlock - s.nextWinners.length)) 0) = s.nextWinners :=
    decodeRecords_flatMap (fun x _ => x.length_bytes) (fun x _ => x.ofBytes_bytes) _
  rw [h.winners] at hwinners
  have hlength : minimumBestChainStateSize ≤ (serializeBestChainState s).length := by
    simp only [serializeBestChainState, minimumBestChainStateSize, length_append, length_leBytes,
      Hash.length_bytes]
    omega
  unfold deserializeBestChainState
  refine bind_eq_ok.2 ⟨⟨⟩, rejectIf_eq_ok.2 (not_lt.2 hlength), ?_⟩
  simp only [serializeBestChainState, Hash.read_append, readUint_append (k := 4) h.height,
    readUint_append (k := 4) h.keyHeight, readUint_append (k := 4) h.live,
    readUint_append (k := 8) h.missed, readUint_append (k := 8) h.revoked,
    readUint_append (k := 2) h.perBlock, h.winners, hwinners]
  rfl

/-! ## The buckets of tickets -/

/-- What the three buckets hold for a ticket. -/
def TicketBuckets.pools (t : TicketBuckets) (k : Hash) :
    Option (List UInt8) × Option (List UInt8) × Option (List UInt8) :=
  (t.live[k]?, t.missed[k]?, t.revoked[k]?)

/-- The records for what the treaps hold for a ticket. -/
def Pools.stored (x : Pools) : Option (List UInt8) × Option (List UInt8) × Option (List UInt8) :=
  (x.1.map serializeTicket, x.2.1.map serializeTicket, x.2.2.map serializeTicket)

/-- The buckets for the treaps of a node. -/
def bucketsOf (n : Node) : TicketBuckets where
  live := n.liveTickets.map fun _ v => serializeTicket v
  missed := n.missedTickets.map fun _ v => serializeTicket v
  revoked := n.revokedTickets.map fun _ v => serializeTicket v

/-- Where the buckets of a node hold a ticket. -/
theorem pools_bucketsOf (n : Node) (k : Hash) : (bucketsOf n).pools k = (n.pools k).stored := by
  simp [pools, bucketsOf, Pools.stored, Node.pools, Std.ExtTreeMap.getElem?_map]

/-- Buckets are known by where each ticket is. -/
theorem TicketBuckets.ext_pools {t t' : TicketBuckets} (h : ∀ k, t.pools k = t'.pools k) : t = t' :=
  TicketBuckets.ext (ext_getElem? fun k => congrArg Prod.fst (h k))
    (ext_getElem? fun k => congrArg (fun x => x.2.1) (h k))
      (ext_getElem? fun k => congrArg (fun x => x.2.2) (h k))

theorem dbDeleteTicket_of_some {bucket : TicketBucket} {bytes : List UInt8}
    (h : bucket[k]? = some bytes) : dbDeleteTicket bucket k = .ok (bucket.erase k) := by
  rw [dbDeleteTicket, if_pos]
  rw [mem_iff_isSome_getElem?, h]
  rfl

theorem TicketBuckets.pools_update {l m r : Option (List UInt8)}
    {x : Option (List UInt8) × Option (List UInt8) × Option (List UInt8)}
    {live missed revoked : TicketBucket} (hx : (l, m, r) = x)
    (hl : ∀ j, live[j]? = if k = j then l else t.live[j]?)
    (hm : ∀ j, missed[j]? = if k = j then m else t.missed[j]?)
    (hr : ∀ j, revoked[j]? = if k = j then r else t.revoked[j]?) :
    (⟨live, missed, revoked⟩ : TicketBuckets).pools k = x ∧
      ∀ j, j ≠ k → (⟨live, missed, revoked⟩ : TicketBuckets).pools j = t.pools j := by
  constructor
  · rw [pools, hl, hm, hr, if_pos rfl, if_pos rfl, if_pos rfl, hx]
  · intro j hj
    rw [pools, hl, hm, hr, if_neg hj.symm, if_neg hj.symm, if_neg hj.symm]
    rfl

theorem getElem?_erase_bucket (b : TicketBucket) (k j : Hash) :
    (b.erase k)[j]? = if k = j then none else b[j]? := by
  simp [getElem?_erase]

theorem getElem?_dbPutTicket (b : TicketBucket) (k : Hash) (v : Value) (j : Hash) :
    (dbPutTicket b k v)[j]? = if k = j then some (serializeTicket v) else b[j]? := by
  simp [dbPutTicket, Std.ExtTreeMap.getElem?_insert]

theorem getElem?_of_eq {b : TicketBucket} {bytes : Option (List UInt8)} (h : b[k]? = bytes)
    (j : Hash) : b[j]? = if k = j then bytes else b[j]? := by
  split_ifs with hj
  · rw [← hj, h]
  · rfl

/-- A move is written to the buckets. -/
theorem Move.written (h : Move k x u y) (ht : t.pools k = x.stored) :
    ∃ t', writeConnectedTicket t u = .ok t' ∧ t'.pools k = y.stored ∧ ∀ j, j ≠ k →
    t'.pools j = t.pools j := by
  simp only [pools, Pools.stored, Prod.mk.injEq] at ht
  obtain ⟨hl, hm, hr⟩ := ht
  cases h with
  | @voted v m r hv =>
    obtain ⟨-, hrevoked, -, -⟩ := hv
    refine ⟨{ t with live := t.live.erase k }, ?_, pools_update rfl
      (getElem?_erase_bucket _ _) (getElem?_of_eq hm) (getElem?_of_eq hr)⟩
    simp [writeConnectedTicket, undoOf, hrevoked, dbDeleteTicket_of_some hl]
  | @missed v r hv | @expired v r hv =>
    obtain ⟨-, hrevoked, -, -⟩ := hv
    refine ⟨_, ?_, pools_update rfl (getElem?_erase_bucket _ _)
      (getElem?_dbPutTicket _ _ _) (getElem?_of_eq hr)⟩
    simp [writeConnectedTicket, undoOf, value, hrevoked, dbDeleteTicket_of_some hl]
  | @revoked v l hmissed hrevoked =>
    refine ⟨_, ?_, pools_update rfl (getElem?_of_eq hl) (getElem?_erase_bucket _ _)
      (getElem?_dbPutTicket _ _ _)⟩
    simp [writeConnectedTicket, undoOf, value, hmissed, dbDeleteTicket_of_some hm]
  | @added v hv =>
    refine ⟨_, ?_, pools_update rfl (getElem?_dbPutTicket _ _ v) (getElem?_of_eq hm)
      (getElem?_of_eq hr)⟩
    obtain ⟨_, _, _, _, _, _⟩ := v
    obtain ⟨rfl, rfl, rfl, rfl⟩ := hv
    rfl

/-- A move is taken back from the buckets. -/
theorem Move.unwritten (h : Move k x u y) (ht : t.pools k = y.stored) :
    ∃ t', writeDisconnectedTicket t u = .ok t' ∧ t'.pools k = x.stored ∧ ∀ j, j ≠ k →
    t'.pools j = t.pools j := by
  simp only [pools, Pools.stored, Prod.mk.injEq] at ht
  obtain ⟨hl, hm, hr⟩ := ht
  cases h with
  | @voted v m r hv =>
    refine ⟨_, ?_, pools_update rfl (getElem?_dbPutTicket _ _ v) (getElem?_of_eq hm)
      (getElem?_of_eq hr)⟩
    obtain ⟨_, _, _, _, _, _⟩ := v
    obtain ⟨rfl, rfl, rfl, rfl⟩ := hv
    rfl
  | @missed v r hv | @expired v r hv =>
    refine ⟨_, ?_, pools_update rfl (getElem?_dbPutTicket _ _ v)
      (getElem?_erase_bucket _ _) (getElem?_of_eq hr)⟩
    obtain ⟨_, _, _, _, _, _⟩ := v
    obtain ⟨rfl, rfl, rfl, rfl⟩ := hv
    simp [writeDisconnectedTicket, undoOf, value, dbDeleteTicket_of_some hm]
  | @revoked v l hmissed hrevoked =>
    refine ⟨_, ?_, pools_update rfl (getElem?_of_eq hl) (getElem?_dbPutTicket _ _ v)
      (getElem?_erase_bucket _ _)⟩
    obtain ⟨_, _, _, _, _, _⟩ := v
    obtain rfl := hmissed
    obtain rfl := hrevoked
    simp [writeDisconnectedTicket, undoOf, value, dbDeleteTicket_of_some hr]
  | @added v hv =>
    obtain ⟨hmissed, hrevoked, hspent, -⟩ := hv
    refine ⟨_, ?_, pools_update rfl (getElem?_erase_bucket _ _) (getElem?_of_eq hm)
      (getElem?_of_eq hr)⟩
    simp [writeDisconnectedTicket, undoOf, hmissed, hrevoked, hspent, dbDeleteTicket_of_some hl]

section Log

variable {n m : Node} {header : BlockHeader} {new : List Hash}

/-- The undo data of a child write its buckets. -/
theorem Connected.written (h : Connected n m header new) :
    m.databaseUndoUpdate.foldlM writeConnectedTicket (bucketsOf n) = .ok (bucketsOf m) := by
  have hreverses : Reverses pools ticketHash writeConnectedTicket
      (bucketsOf m) m.databaseUndoUpdate (bucketsOf n) := by
    refine ⟨h.nodup, fun k hk => ?_, fun u hu t ht => ?_⟩
    · rw [pools_bucketsOf, pools_bucketsOf, h.frame k hk]
    · rw [pools_bucketsOf] at ht ⊢
      exact (h.move u hu).written ht
  obtain ⟨t, ht, hpools⟩ := hreverses.replay fun _ => rfl
  rw [ht, ext_pools hpools]

/-- They also take its buckets back. -/
theorem Connected.unwritten (h : Connected n m header new) :
    m.databaseUndoUpdate.foldlM writeDisconnectedTicket (bucketsOf m) = .ok (bucketsOf n) := by
  have hreverses : Reverses pools ticketHash writeDisconnectedTicket
      (bucketsOf n) m.databaseUndoUpdate (bucketsOf m) := by
    refine ⟨h.nodup, fun k hk => ?_, fun u hu t ht => ?_⟩
    · rw [pools_bucketsOf, pools_bucketsOf, h.frame k hk]
    · rw [pools_bucketsOf] at ht ⊢
      exact (h.move u hu).unwritten ht
  obtain ⟨t, ht, hpools⟩ := hreverses.replay fun _ => rfl
  rw [ht, ext_pools hpools]

end Log

/-! ## What the database holds for a node -/

/-- The tip that is stored for a node. -/
def bestStateOf (p : Params) (n : Node) (hash : Hash) (keyHeight : ℕ) : BestChainState where
  hash := hash
  height := n.height
  keyHeight := keyHeight
  live := n.liveTickets.size
  missed := n.missedTickets.size
  revoked := n.revokedTickets.size
  perBlock := p.ticketsPerBlock
  nextWinners := n.nextWinners ++ replicate (p.ticketsPerBlock - n.nextWinners.length) 0

/-- The database holds a node as its best one, with a key height in the record of the best state. -/
structure Stores (p : Params) (db : Database) (n : Node) (hash : Hash) (keyHeight : ℕ) : Prop where
  tickets : db.tickets = bucketsOf n
  undo : db.blockUndo[n.height]? = some (serializeBlockUndoData n.databaseUndoUpdate)
  undo_above : ∀ height, n.height < height → db.blockUndo[height]? = none
  new : db.ticketsInBlock[n.height]? = some (serializeTicketHashes (n.databaseBlockTickets.getD []))
  new_above : ∀ height, n.height < height → db.ticketsInBlock[height]? = none
  best : db.bestState = some (serializeBestChainState (bestStateOf p n hash keyHeight))

/-- The database with a node written into it, over the data that other heights have. -/
def databaseOf (p : Params) (blockUndo ticketsInBlock : HeightBucket) (n : Node) (hash : Hash)
    (keyHeight : ℕ) : Database where
  tickets := bucketsOf n
  blockUndo := blockUndo.insert n.height (serializeBlockUndoData n.databaseUndoUpdate)
  ticketsInBlock := ticketsInBlock.insert n.height
    (serializeTicketHashes (n.databaseBlockTickets.getD []))
  bestState := some (serializeBestChainState (bestStateOf p n hash keyHeight))

/-- A node whose heights and numbers of tickets fit in the fields of the records. -/
@[mk_iff] structure Node.Fits (n : Node) : Prop where
  height : n.height < 2^32
  keyHeight : n.keyHeight < 2^32
  live : n.liveTickets.size < 2^32
  missed : n.missedTickets.size < 2^64
  revoked : n.revokedTickets.size < 2^64

instance (n : Node) : Decidable n.Fits := decidable_of_iff' _ n.fits_iff

/-- A node all of whose tickets and log entries fit as well. -/
structure Node.Storable (p : Params) (n : Node) : Prop extends n.Fits where
  winners : n.nextWinners.length ≤ p.ticketsPerBlock
  values : ∀ (k : Hash) (v : Value), n.liveTickets[k]? = some v ∨ n.missedTickets[k]? = some v ∨
    n.revokedTickets[k]? = some v → v.Fits
  log : ∀ u ∈ n.databaseUndoUpdate, u.value.Fits

section Store

variable {p : Params} {n : Node} {db : Database} {hash : Hash} {keyHeight : ℕ}

theorem Stores.dbFetchBestState (h : Stores p db n hash keyHeight) (hn : n.Storable p)
    (htpb : p.ticketsPerBlock < 2^16) (hkey : keyHeight < 2^32) :
    Stake.dbFetchBestState db = .ok (bestStateOf p n hash keyHeight) := by
  rw [Stake.dbFetchBestState, h.best]
  refine deserializeBestChainState_serialize
    ⟨hn.height, hkey, hn.live, hn.missed, hn.revoked, htpb, ?_⟩
  have hwinners := hn.winners
  simp only [bestStateOf, length_append, length_replicate]
  omega

/-- What is put for a node. -/
theorem dbPutNode_eq (hwinners : n.nextWinners.length ≤ p.ticketsPerBlock)
    (hheight : n.height < 2^32) :
    dbPutNode db p n hash keyHeight (bucketsOf n) =
      .ok (databaseOf p db.blockUndo db.ticketsInBlock n hash keyHeight) := by
  have hpad : paddedWinners p n.nextWinners =
      .ok (n.nextWinners ++ replicate (p.ticketsPerBlock - n.nextWinners.length) 0) :=
    bind_eq_ok.2 ⟨⟨⟩, rejectIf_eq_ok.2 (not_lt.2 hwinners), rfl⟩
  rw [dbPutNode, hpad, u32_of_lt hheight]
  rfl

/-- The database of a node stores it. -/
theorem stores_databaseOf {blockUndo ticketsInBlock : HeightBucket}
    (hundo : ∀ height, n.height < height → blockUndo[height]? = none)
    (hnew : ∀ height, n.height < height → ticketsInBlock[height]? = none) :
    Stores p (databaseOf p blockUndo ticketsInBlock n hash keyHeight) n hash keyHeight := by
  have habove : ∀ (bucket : HeightBucket) (value : List UInt8),
      (∀ height, n.height < height → bucket[height]? = none) →
      ∀ height, n.height < height → (bucket.insert n.height value)[height]? = none := by
    intro bucket value hbucket height hlt
    rw [Std.ExtTreeMap.getElem?_insert, if_neg (by simpa using hlt.ne)]
    exact hbucket height hlt
  exact ⟨rfl, by simp [databaseOf], habove _ _ hundo, by simp [databaseOf], habove _ _ hnew, rfl⟩

/-- All tickets of a bucket are loaded. -/
theorem dbLoadAllTickets_map {t : TicketTreap}
    (h : ∀ (k : Hash) (v : Value), t[k]? = some v → v.Fits) :
    dbLoadAllTickets (t.map fun _ v => serializeTicket v) = .ok t := by
  have hshort :
      ((t.map fun _ v => serializeTicket v).toList.any fun item => item.2.length < 9) = false := by
    rw [any_eq_false]
    rintro ⟨k, bytes⟩ hmem
    rw [mem_toList_iff_getElem?_eq_some, Std.ExtTreeMap.getElem?_map,
      Option.map_eq_some_iff] at hmem
    obtain ⟨v, -, rfl⟩ := hmem
    simp [serializeTicket, length_leBytes]
  have hmap : ((t.map fun _ v => serializeTicket v).map fun _ bytes => deserializeTicket bytes) =
      t := by
    refine ext_getElem? fun k => ?_
    rw [Std.ExtTreeMap.getElem?_map, Std.ExtTreeMap.getElem?_map, Option.map_map]
    cases hk : t[k]? with
    | none => rfl
    | some v => exact congrArg some (deserializeTicket_serializeTicket (h k v hk))
  unfold dbLoadAllTickets
  rw [hshort, hmap]
  rfl

/-- `LoadBestNode` gives the stored node back. -/
theorem Stores.loadBestNode {hashH : List UInt8 → Hash} {fuel : ℕ} {header : BlockHeader}
    (h : Stores p db n hash keyHeight) (hn : n.Storable p)
    (htpb : p.ticketsPerBlock < 2^16) (hkey : keyHeight < 2^32)
    (hlottery : LotteryOk hashH p fuel n header (isKeyHash hash header)) :
    Stake.loadBestNode hashH p fuel db n.height n.keyHeight hash header = .ok n.stored := by
  have hlive : dbLoadAllTickets db.tickets.live = .ok n.liveTickets :=
    h.tickets ▸ dbLoadAllTickets_map fun k v hv => hn.values k v (.inl hv)
  have hmissed : dbLoadAllTickets db.tickets.missed = .ok n.missedTickets :=
    h.tickets ▸ dbLoadAllTickets_map fun k v hv => hn.values k v (.inr (.inl hv))
  have hrevoked : dbLoadAllTickets db.tickets.revoked = .ok n.revokedTickets :=
    h.tickets ▸ dbLoadAllTickets_map fun k v hv => hn.values k v (.inr (.inr hv))
  have hundo : Stake.dbFetchBlockUndoData db n.height = .ok n.databaseUndoUpdate := by
    rw [Stake.dbFetchBlockUndoData, dbFetchHeight, u32_of_lt hn.height, h.undo]
    exact deserializeRecords_flatMap (by decide)
      (fun u _ => by simp [serializeUndo, undoTicketDataSize, length_leBytes, Hash.length_bytes])
      fun u hu => deserializeUndo_serializeUndo (hn.log u hu)
  have hnew : Stake.dbFetchNewTickets db n.height = .ok (n.databaseBlockTickets.getD []) := by
    rw [Stake.dbFetchNewTickets, dbFetchHeight, u32_of_lt hn.height, h.new]
    exact deserializeRecords_flatMap (by decide) (fun k _ => k.length_bytes) fun k _ =>
      k.ofBytes_bytes
  unfold Stake.loadBestNode
  simp only [bind_eq_ok, rejectIf_eq_ok, exists_const]
  refine ⟨_, h.dbFetchBestState hn htpb hkey, by simp [bestStateOf], _,
    hlive, by simp [bestStateOf], _,
    hmissed, by simp [bestStateOf], _, hrevoked, by simp [bestStateOf], _, hundo, _, hnew, ?_⟩
  unfold LotteryOk at hlottery
  split_ifs at hlottery ⊢ with hreal
  · obtain ⟨hlength, idxs, prng, hidxs, hfinal⟩ := hlottery
    refine bind_eq_ok.2 ⟨(idxs, prng), hidxs, pure_eq_ok.2 ?_⟩
    have hpad : (bestStateOf p n hash keyHeight).nextWinners = n.nextWinners := by
      simp [bestStateOf, hlength]
    rw [hpad, ← hfinal]
    rfl
  · obtain ⟨hwinners, hfinal⟩ := hlottery
    exact pure_eq_ok.2 (Node.ext rfl rfl rfl rfl rfl rfl rfl hwinners.symm hfinal.symm)

end Store

/-! ## Connecting and disconnecting -/

/-- What the treaps hold for a ticket fits in its records. -/
def Pools.Fits (x : Pools) : Prop :=
  ∀ v, x.1 = some v ∨ x.2.1 = some v ∨ x.2.2 = some v → v.Fits

/-- A move keeps the heights in 32 bits. -/
theorem Move.fits (h : Move k x u y) (hx : x.Fits)
    (hu : x = (none, none, none) → u.value.Fits) : y.Fits ∧ u.value.Fits := by
  cases h <;>
    simp_all [Pools.Fits, or_imp, forall_and, Value.Fits, undoOf, value]

section Steps

variable {p : Params} {n m : Node} {header : BlockHeader} {new : List Hash} {db : Database}
  {hash : Hash} {keyHeight : ℕ}

/-- A child of a node that can be stored can be stored. -/
theorem Connected.storable (h : Connected n m header new) (hn : n.Storable p) (hfits : m.Fits)
    (hwinners : m.nextWinners.length ≤ p.ticketsPerBlock) : m.Storable p := by
  have hold : ∀ k, (n.pools k).Fits := fun k v hv => hn.values k v hv
  have hmove : ∀ u ∈ m.databaseUndoUpdate, (m.pools u.ticketHash).Fits ∧ u.value.Fits := by
    intro u hu
    refine (h.move u hu).fits (hold _) fun hnone => ?_
    obtain ⟨-, hheight, hkeyHeight⟩ := (h.old u hu).resolve_left fun hne => hne hnone
    exact ⟨hheight.trans_lt hfits.height, hkeyHeight.trans_lt hfits.keyHeight⟩
  refine ⟨hfits, hwinners, fun k v hv => ?_, fun u hu => (hmove u hu).2⟩
  by_cases hk : k ∈ m.databaseUndoUpdate.map ticketHash
  · obtain ⟨u, hu, rfl⟩ := mem_map.1 hk
    exact (hmove u hu).1 v hv
  · have hsame := hold k
    rw [← h.frame k hk] at hsame
    exact hsame v hv

theorem dropAbove_succ (bucket : HeightBucket) {height : ℕ} (h : height + 1 < 2^32) :
    dropAbove bucket (height + 1) height = bucket.erase (height + 1) := by
  rw [dropAbove, Nat.add_sub_cancel_left]
  simp [u32_of_lt h]

variable (hm : Connected n m header new)

include hm

/-- `WriteConnectedBestNode` succeeds. -/
theorem Stores.writeConnected (h : Stores p db n hash keyHeight) (hstorable : m.Storable p)
    (hash' : Hash) :
    writeConnectedBestNode p db m hash' =
      .ok (databaseOf p db.blockUndo db.ticketsInBlock m hash' m.keyHeight) :=
  bind_eq_ok.2 ⟨_, h.tickets ▸ hm.written, dbPutNode_eq hstorable.winners hstorable.height⟩

/-- After it the child is stored. -/
theorem Stores.child (h : Stores p db n hash keyHeight) (hash' : Hash) :
    Stores p (databaseOf p db.blockUndo db.ticketsInBlock m hash' m.keyHeight) m hash'
      m.keyHeight := by
  have hheight := hm.height
  exact stores_databaseOf (fun height hlt => h.undo_above height (by omega))
    fun height hlt => h.new_above height (by omega)

/-- `WriteDisconnectedBestNode` writes the node of the parent over that of a block, and no key
height. -/
theorem Stores.writeDisconnected (h : Stores p db m hash keyHeight) (hstorable : m.Storable p)
    (hn : n.Storable p) (htpb : p.ticketsPerBlock < 2^16) (hkey : keyHeight < 2^32) (hash' : Hash) :
    writeDisconnectedBestNode p db n hash' m.databaseUndoUpdate = .ok (databaseOf p
      (db.blockUndo.erase m.height) (db.ticketsInBlock.erase m.height) n hash' 0) := by
  have hheight : (bestStateOf p m hash keyHeight).height = n.height + 1 := hm.height
  have hlt : n.height + 1 < 2^32 := by
    have hfits := hstorable.height
    rwa [hm.height] at hfits
  refine bind_eq_ok.2 ⟨_, h.dbFetchBestState hstorable htpb hkey, bind_eq_ok.2 ⟨_,
    by rw [h.tickets]; exact hm.unwritten, ?_⟩⟩
  rw [hheight, dropAbove_succ _ hlt, dropAbove_succ _ hlt, dbPutNode_eq hn.winners hn.height,
    hm.height]

/-- After a disconnect the parent is stored. -/
theorem Stores.parent (h : Stores p db m hash keyHeight) (hash' : Hash) : Stores p (databaseOf p
    (db.blockUndo.erase m.height) (db.ticketsInBlock.erase m.height) n hash' 0) n hash' 0 := by
  have habove : ∀ bucket : HeightBucket, (∀ height, m.height < height → bucket[height]? = none) →
      ∀ height, n.height < height → (bucket.erase m.height)[height]? = none := by
    intro bucket hbucket height hlt
    have hheight := hm.height
    rw [getElem?_erase]
    split_ifs with heq
    · rfl
    · refine hbucket height ?_
      simp only [compare_eq_iff_eq] at heq
      omega
  exact stores_databaseOf (habove _ h.undo_above) (habove _ h.new_above)

/-- What is left of a database after a child of its best node was written and taken back: all of it
but the key height in the record of the best state, which is zero then. -/
theorem Stores.writeDisconnected_child (h : Stores p db n hash keyHeight) (hstorable : m.Storable p)
    (hn : n.Storable p) (htpb : p.ticketsPerBlock < 2^16) (hash' : Hash) :
    writeDisconnectedBestNode p
      (databaseOf p db.blockUndo db.ticketsInBlock m hash' m.keyHeight) n hash
      m.databaseUndoUpdate =
        .ok { db with bestState := some (serializeBestChainState (bestStateOf p n hash 0)) } := by
  have hheight := hm.height
  -- nothing was stored above the node, and what was stored at its height is written again
  have hbucket : ∀ (bucket : HeightBucket) (value value' : List UInt8),
      bucket[n.height]? = some value → bucket[m.height]? = none →
      ((bucket.insert m.height value').erase m.height).insert n.height value = bucket := by
    intro bucket value value' hvalue hnone
    refine ext_getElem? fun height => ?_
    rw [Std.ExtTreeMap.getElem?_insert, getElem?_erase, Std.ExtTreeMap.getElem?_insert]
    split_ifs with hn hm
    · rw [← hvalue, compare_eq_iff_eq.1 hn]
    · rw [← hnone, compare_eq_iff_eq.1 hm]
    · rfl
  have hundo := hbucket db.blockUndo _ (serializeBlockUndoData m.databaseUndoUpdate) h.undo
    (h.undo_above _ (by omega))
  have hnew := hbucket db.ticketsInBlock _ 
    (serializeTicketHashes (m.databaseBlockTickets.getD [])) h.new (h.new_above _ (by omega))
  rw [(h.child hm hash').writeDisconnected hm hstorable hn htpb hstorable.keyHeight hash]
  simp only [databaseOf, hundo, hnew, h.tickets]

end Steps

/-! ## Runs -/

/-- A node of a branch with the hash of its block. -/
structure StoredNode extends BranchNode where
  hash : Hash

section Runs

variable (hashH : List UInt8 → Hash) (p : Params) (fuel : ℕ)

/-- The databases and branches, tip first, that connecting blocks and disconnecting the tip lead to
when every new tip is written. -/
inductive DbWalk : Database → List StoredNode → Prop
  | init {db : Database} (h : BlockHeader) (isKeyBlock : Bool) (hash : Hash)
      (hearly : realKeyHeight h isKeyBlock + 1 < p.stakeValidationHeight)
      (hdb : initDatabaseState p hash = .ok db) :
      DbWalk db [⟨⟨genesisNode, h, isKeyBlock⟩, hash⟩]
  | connect {db db' : Database} {b : StoredNode} {branch : List StoredNode} {m : Node}
      {header : BlockHeader} {isKeyBlock : Bool} {hash : Hash} {spent revoked : List Hash}
      {new : Option (List Hash)} (hwalk : DbWalk db (b :: branch))
      (hwf : WellFormed b.node b.header b.isKeyBlock
        (branchTickets ((b :: branch).map StoredNode.toBranchNode)) header revoked (new.getD []))
      (hm : connectNode hashH p fuel b.node header spent revoked new isKeyBlock = .ok m)
      (hfits : m.Fits) (hdb : writeConnectedBestNode p db m hash = .ok db') :
      DbWalk db' (⟨⟨m, header, isKeyBlock⟩, hash⟩ :: b :: branch)
  | disconnect {db db' : Database} {c b : StoredNode} {branch : List StoredNode} {n : Node}
      {parentUtds : Option (List UndoTicketData)} {parentTickets : Option (List Hash)}
      {dbTx : Option TicketDB} (hwalk : DbWalk db (c :: b :: branch))
      (hdata : ParentData b.node c.node parentUtds parentTickets dbTx)
      (hn : disconnectNode hashH p fuel c.node b.header parentUtds parentTickets c.isKeyBlock dbTx =
        .ok n)
      (hdb : writeDisconnectedBestNode p db n b.hash c.node.databaseUndoUpdate = .ok db') :
      DbWalk db' ({ b with node := n } :: branch)

/-- A database that holds the tip of a branch whose nodes can all be stored. -/
structure Holds (db : Database) (b : StoredNode) (branch : List StoredNode) : Prop where
  grown : Grown hashH p fuel ((b :: branch).map StoredNode.toBranchNode)
  storable : ∀ c ∈ b :: branch, c.node.Storable p
  stores : ∃ keyHeight < 2^32, Stores p db b.node b.hash keyHeight

end Runs

section Held

variable {hashH : List UInt8 → Hash} {p : Params} {fuel : ℕ} {db db' : Database} {b : StoredNode}
  {branch : List StoredNode}

theorem Grown.winners_le {b : BranchNode} {branch : List BranchNode}
    (h : Grown hashH p fuel (b :: branch)) : b.node.nextWinners.length ≤ p.ticketsPerBlock := by
  have hlottery := h.lotteryOk
  unfold LotteryOk at hlottery
  split_ifs at hlottery
  · exact hlottery.1.le
  · simp [hlottery.1]

theorem storable_genesisNode : genesisNode.Storable p :=
  ⟨⟨by decide, by decide, by decide, by decide, by decide⟩, Nat.zero_le _,
    fun _ _ hv => by simp [genesisNode] at hv, fun _ hu => by cases hu⟩

/-- A new database stores the genesis node. -/
theorem stores_initDatabaseState {hash : Hash} (h : initDatabaseState p hash = .ok db) :
    Stores p db genesisNode hash 0 := by
  have htickets :
      dbCreate.tickets = bucketsOf genesisNode := by simp [bucketsOf, dbCreate, genesisNode]
  rw [initDatabaseState, htickets, dbPutNode_eq (Nat.zero_le _) (by decide)] at h
  obtain rfl := Except.ok.inj h
  exact stores_databaseOf (fun _ _ => by simp [dbCreate]) fun _ _ => by simp [dbCreate]

/-- Connecting keeps the database in step with the branch. -/
theorem Holds.connect {m : Node} {header : BlockHeader} {isKeyBlock : Bool} {hash : Hash}
    {spent revoked : List Hash} {new : Option (List Hash)} (h : Holds hashH p fuel db b branch)
    (hwf : WellFormed b.node b.header b.isKeyBlock
      (branchTickets ((b :: branch).map StoredNode.toBranchNode)) header revoked (new.getD []))
    (hm : connectNode hashH p fuel b.node header spent revoked new isKeyBlock = .ok m)
    (hfits : m.Fits) :
    ∃ db', writeConnectedBestNode p db m hash = .ok db' ∧
      Holds hashH p fuel db' ⟨⟨m, header, isKeyBlock⟩, hash⟩ (b :: branch) := by
  have hgrown := h.grown.connect hwf hm (.inl rfl)
  have hconnected := h.grown.inv.connected hwf hm (.inl rfl)
  have hstorable := hconnected.storable (h.storable b (mem_cons_self ..)) hfits hgrown.winners_le
  obtain ⟨_, -, hstores⟩ := h.stores
  refine ⟨_, hstores.writeConnected hconnected hstorable hash, hgrown, fun c hc => ?_, m.keyHeight,
    hfits.keyHeight, hstores.child hconnected hash⟩
  rcases mem_cons.1 hc with rfl | hc
  · exact hstorable
  · exact h.storable c hc

/-- Disconnecting keeps the database in step with the branch. -/
theorem Holds.disconnect (htpb : p.ticketsPerBlock < 2^16) {c : StoredNode}
    (h : Holds hashH p fuel db c (b :: branch)) :
    ∃ db', writeDisconnectedBestNode p db b.node b.hash c.node.databaseUndoUpdate = .ok db' ∧
      Holds hashH p fuel db' b branch := by
  have hstorable : ∀ a ∈ b :: branch, a.node.Storable p := fun a ha =>
    h.storable a (mem_cons_of_mem _ ha)
  obtain ⟨keyHeight, hkey, hstores⟩ := h.stores
  obtain ⟨⟨m, header, isKeyBlock⟩, hash⟩ := c
  cases h.grown with
  | connect hgrown hwf hm hm' =>
    have hconnected := hgrown.inv.connected hwf hm hm'
    have hdb := hstores.writeDisconnected hconnected (h.storable _ (mem_cons_self ..))
      (hstorable b (mem_cons_self ..)) htpb hkey b.hash
    exact ⟨_, hdb, hgrown, hstorable, 0, by decide, hstores.parent hconnected b.hash⟩

/-- The database tells a nil list of new tickets from an empty one no more. -/
theorem Holds.stored (h : Holds hashH p fuel db b branch) :
    Holds hashH p fuel db { b with node := b.node.stored } branch where
  grown := h.grown.stored
  storable := by
    intro c hc
    rcases mem_cons.1 hc with rfl | hc
    · exact { h.storable b (mem_cons_self ..) with }
    · exact h.storable c (mem_cons_of_mem _ hc)
  stores := by
    obtain ⟨keyHeight, hkey, hstores⟩ := h.stores
    exact ⟨keyHeight, hkey, { hstores with }⟩

/-- Every walk keeps the database in step. -/
theorem DbWalk.holds (hp : p.stakeEnabledHeight + 1 ≤ p.stakeValidationHeight)
    (htpb : p.ticketsPerBlock < 2^16) (h : DbWalk hashH p fuel db (b :: branch)) :
    Holds hashH p fuel db b branch := by
  generalize hbs : b :: branch = bs at h
  induction h generalizing b branch with
  | init h isKeyBlock hash hearly hdb =>
    cases hbs
    refine ⟨.genesis h isKeyBlock hearly, fun c hc =>
      ?_, 0, by decide, stores_initDatabaseState hdb⟩
    rw [mem_singleton.1 hc]
    exact storable_genesisNode
  | connect _ hwf hm hfits hdb ih =>
    cases hbs
    obtain ⟨db'', hdb', hholds⟩ := (ih rfl).connect hwf hm hfits
    obtain rfl := Except.ok.inj (hdb.symm.trans hdb')
    exact hholds
  | disconnect _ hdata hn hdb ih =>
    cases hbs
    have hholds := ih rfl
    -- disconnecting gives back the node of the parent, so that its branch is the old one
    obtain rfl := Except.ok.inj ((hholds.grown.disconnectNode hp hdata).1.symm.trans hn)
    obtain ⟨db'', hdb', hholds'⟩ := hholds.disconnect htpb
    obtain rfl := Except.ok.inj (hdb.symm.trans hdb')
    exact hholds'.stored

/-- The ticket database refines the stake node in memory: `LoadBestNode` at the tip of a run of
writes succeeds and returns the node of the tip, with an empty list of new tickets for a nil one. -/
theorem loadBestNode_tip (hp : p.stakeEnabledHeight + 1 ≤ p.stakeValidationHeight)
    (htpb : p.ticketsPerBlock < 2^16) (hwalk : DbWalk hashH p fuel db (b :: branch))
    (hkind : b.isKeyBlock = isKeyHash b.hash b.header) :
    loadBestNode hashH p fuel db b.node.height b.node.keyHeight b.hash b.header =
      .ok b.node.stored := by
  have hholds := hwalk.holds hp htpb
  obtain ⟨keyHeight, hkey, hstores⟩ := hholds.stores
  exact hstores.loadBestNode (hholds.storable b (mem_cons_self ..)) htpb hkey
    (hkind ▸ hholds.grown.lotteryOk)

/-- Two key blocks, with the databases after each: the first adds four tickets, in the second the
winner votes and the others expire. -/
def storedRun : Except Err (Node × Database × Node × Database) := do
  let db₀ ← initDatabaseState oneVoteNet 100
  let n ← connectNode lengthHash oneVoteNet 8 genesisNode (bareHeader 1 0) [] []
    (some [10, 20, 30, 40]) true
  let db₁ ← writeConnectedBestNode oneVoteNet db₀ n 101
  let m ← connectNode lengthHash oneVoteNet 8 n (bareHeader 2 1) n.nextWinners [] (some [50]) true
  let db₂ ← writeConnectedBestNode oneVoteNet db₁ m 102
  pure (n, db₁, m, db₂)

/-- The branch after the first block of the run. -/
def storedBranch (n : Node) : List StoredNode :=
  [⟨⟨n, bareHeader 1 0, true⟩, 101⟩, ⟨⟨genesisNode, bareHeader 0 0, false⟩, 100⟩]

/-- The nodes and databases of the run. -/
@[irreducible]
def stored : Node × Database × Node × Database := valueOf (x := storedRun) (by decide +kernel)

theorem wellFormed_stored : WellFormed stored.1 (bareHeader 1 0) true
    (branchTickets ((storedBranch stored.1).map StoredNode.toBranchNode)) (bareHeader 2 1) []
      (Option.getD (some [50]) []) :=
  ⟨rfl, by simp, by simp, by decide +kernel, by decide +kernel⟩

theorem dbWalk_storedRun : storedRun = .ok stored ∧
    connectNode lengthHash oneVoteNet 8 stored.1 (bareHeader 2 1) stored.1.nextWinners []
      (some [50]) true = .ok stored.2.2.1 ∧
    writeConnectedBestNode oneVoteNet stored.2.1 stored.2.2.1 102 = .ok stored.2.2.2 ∧
    DbWalk lengthHash oneVoteNet 8 stored.2.1 (storedBranch stored.1) ∧
    DbWalk lengthHash oneVoteNet 8 stored.2.2.2
      (⟨⟨stored.2.2.1, bareHeader 2 1, true⟩, 102⟩ :: storedBranch stored.1) := by
  have hrun : storedRun = .ok stored := by
    unfold stored
    exact eq_ok_valueOf _
  have hwf := wellFormed_stored
  have hn1 : stored.1.Fits := by decide +kernel
  have hm1 : stored.2.2.1.Fits := by decide +kernel
  refine ⟨hrun, ?_⟩
  unfold storedRun at hrun
  simp only [bind_eq_ok, pure_eq_ok] at hrun
  obtain ⟨db₀, hdb₀, n, hn, db₁, hdb1, m, hm, db₂, hdb2, heq⟩ := hrun
  rw [← heq] at hwf hn1 hm1 ⊢
  have hwalk : DbWalk lengthHash oneVoteNet 8 db₁ (storedBranch n) := by
    refine .connect (.init (bareHeader 0 0) false 100 (by decide) hdb₀) ?_ hn hn1 hdb1
    exact ⟨rfl, by simp, by simp, by decide +kernel, by decide +kernel⟩
  exact ⟨hm, hdb2, hwalk, .connect hwalk hwf hm hm1 hdb2⟩

/-- The second block of the run is disconnected again: both tips are read back. -/
theorem loadBestNode_tip_storedRun : ∃ n db₁ m db₂ r db₃, storedRun = .ok (n, db₁, m, db₂) ∧
    disconnectNode lengthHash oneVoteNet 8 m (bareHeader 1 0) (some n.databaseUndoUpdate)
      n.databaseBlockTickets true none = .ok r ∧
    writeDisconnectedBestNode oneVoteNet db₂ r 101 m.databaseUndoUpdate = .ok db₃ ∧
    loadBestNode lengthHash oneVoteNet 8 db₂ m.height m.keyHeight 102 (bareHeader 2 1) =
      .ok m.stored ∧
    loadBestNode lengthHash oneVoteNet 8 db₃ r.height r.keyHeight 101 (bareHeader 1 0) =
      .ok r.stored := by
  obtain ⟨hrun, -, -, -, hwalk⟩ := dbWalk_storedRun
  refine ⟨_, _, _, _, _, _, hrun, eq_ok_valueOf ?hr, eq_ok_valueOf ?hdb,
    loadBestNode_tip (by decide) (by decide) hwalk ?hkind₂, loadBestNode_tip (by decide) (by decide)
      (hwalk.disconnect (fun _ => ?hdata) (eq_ok_valueOf ?hr) (eq_ok_valueOf ?hdb)) ?hkind₁⟩
  all_goals decide +kernel

/-- Writing a child of the best node and taking it back restores the whole ticket database if and
only if the key height of the record of the best state was zero. -/
theorem writeDisconnected_writeConnected (hp : p.stakeEnabledHeight + 1 ≤ p.stakeValidationHeight)
    (htpb : p.ticketsPerBlock < 2^16) (hwalk : DbWalk hashH p fuel db (b :: branch)) {m : Node}
    {header : BlockHeader} {isKeyBlock : Bool} {spent revoked : List Hash}
    {new : Option (List Hash)} (hwf : WellFormed b.node b.header b.isKeyBlock
      (branchTickets ((b :: branch).map StoredNode.toBranchNode)) header revoked (new.getD []))
    (hm : connectNode hashH p fuel b.node header spent revoked new isKeyBlock = .ok m)
    (hfits : m.Fits) (hash : Hash) :
    ∃ state db₁ db₂, dbFetchBestState db = .ok state ∧
    writeConnectedBestNode p db m hash = .ok db₁ ∧
      writeDisconnectedBestNode p db₁ b.node b.hash m.databaseUndoUpdate = .ok db₂ ∧
      (db₂ = db ↔ state.keyHeight = 0) := by
  have hholds := hwalk.holds hp htpb
  have hb := hholds.storable b (mem_cons_self ..)
  have hconnected := hholds.grown.inv.connected hwf hm (.inl rfl)
  have hstorable := hconnected.storable hb hfits (hholds.grown.connect hwf hm (.inl rfl)).winners_le
  obtain ⟨keyHeight, hkey, hstores⟩ := hholds.stores
  have hstate := hstores.dbFetchBestState hb htpb hkey
  refine ⟨_, _, _, hstate, hstores.writeConnected hconnected hstorable hash,
    hstores.writeDisconnected_child hconnected hstorable hb htpb hash, fun heq =>
      ?_, fun hzero => ?_⟩
  · have hzero : dbFetchBestState db = .ok (bestStateOf p b.node b.hash 0) := by
      refine Stores.dbFetchBestState ?_ hb htpb (by decide)
      exact { hstores with best := (congrArg Database.bestState heq).symm }
    rw [hstate] at hzero
    exact congrArg BestChainState.keyHeight (Except.ok.inj hzero)
  · have hbest := hstores.best
    rw [show keyHeight = 0 from hzero] at hbest
    rw [← hbest]

/-- The second block of the run, whose parent has key height zero, is taken back without a trace. -/
theorem writeDisconnected_writeConnected_storedRun : ∃ n db₁ m db₂ db₃,
    storedRun = .ok (n, db₁, m, db₂) ∧ writeConnectedBestNode oneVoteNet db₁ m 102 = .ok db₂ ∧
      writeDisconnectedBestNode oneVoteNet db₂ n 101 m.databaseUndoUpdate = .ok db₃ ∧
      db₃ = db₁ := by
  obtain ⟨hrun, hm, hdb2, hwalk, -⟩ := dbWalk_storedRun
  have hzero :
      ∀ state, dbFetchBestState stored.2.1 = .ok state → state.keyHeight = 0 := by decide +kernel
  obtain ⟨state, db₂, db₃, hstate, hdb₂', hdb3, hiff⟩ :=
    writeDisconnected_writeConnected (by decide)
    (by decide) hwalk wellFormed_stored hm (by decide +kernel) 102
  obtain rfl := Except.ok.inj (hdb2.symm.trans hdb₂')
  exact ⟨_, _, _, _, db₃, hrun, hdb2, hdb3, hiff.2 (hzero state hstate)⟩

/-- A third block, whose parent has key height one, leaves a trace in the best state. -/
theorem exists_bestState_ne : ∃ n db₁ m db₂ c db₃ db₄, storedRun = .ok (n, db₁, m, db₂) ∧
    DbWalk lengthHash oneVoteNet 8 db₂ (⟨⟨m, bareHeader 2 1, true⟩, 102⟩ :: storedBranch n) ∧
    WellFormed m (bareHeader 2 1) true (branchTickets ((⟨⟨m, bareHeader 2 1, true⟩, 102⟩ ::
      storedBranch n).map StoredNode.toBranchNode)) (bareHeader 3 2) [] [60] ∧
    connectNode lengthHash oneVoteNet 8 m (bareHeader 3 2) [] [] (some [60]) true = .ok c ∧
    writeConnectedBestNode oneVoteNet db₂ c 103 = .ok db₃ ∧
    writeDisconnectedBestNode oneVoteNet db₃ m 102 c.databaseUndoUpdate = .ok db₄ ∧
    db₄.bestState ≠ db₂.bestState := by
  obtain ⟨hrun, -, -, -, hwalk⟩ := dbWalk_storedRun
  exact ⟨_, _, _, _, _, _, _, hrun, hwalk,
    ⟨rfl, by simp, by simp, by decide +kernel, by decide +kernel⟩,
    eq_ok_valueOf (by decide +kernel), eq_ok_valueOf (by decide +kernel),
    eq_ok_valueOf (by decide +kernel), by decide +kernel⟩

end Held

end Hcashd.Stake
