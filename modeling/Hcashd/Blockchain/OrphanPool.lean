import Hcashd.Blockchain.Process

/-!
# The pool of orphan blocks

The two indexes of orphans in `chain.go`, by their hash and by the hash of their parent, and the
orphan that `addOrphanBlock` remembers as the oldest one. The range over a map comes in no fixed
order, and each orphan is compared with a clock of its own.

`removeOrphanBlock` does not look at the orphan that is remembered. Once that one has left the pool,
the next eviction removes nothing, and the pool grows.
-/

namespace Hcashd.Blockchain

open Lib List Std.ExtTreeMap
open Process (OrphanBlock maxOrphanBlocks orphanLifetime olderOrphan)

/-- The orphans by hash and by parent, and the remembered oldest one. -/
structure OrphanPool where
  orphans : Std.ExtTreeMap Hash OrphanBlock
  prevOrphans : Std.ExtTreeMap Hash (List OrphanBlock)
  oldestOrphan : Option OrphanBlock

namespace OrphanPool

/-- The index with the orphans of a parent, and without it if there are none. -/
def setWaiting (prevOrphans : Std.ExtTreeMap Hash (List OrphanBlock)) (prev : Hash)
    (orphans : List OrphanBlock) :
    Std.ExtTreeMap Hash (List OrphanBlock) :=
  if orphans = [] then prevOrphans.erase prev else prevOrphans.insert prev orphans

/-- The orphans of a parent. -/
def waiting (p : OrphanPool) (prev : Hash) : List OrphanBlock := p.prevOrphans[prev]?.getD []

variable (env : Env)

/-- `removeOrphanBlock`: takes an orphan out of both indexes. -/
def removeOrphanBlock (p : OrphanPool) (orphan : OrphanBlock) : OrphanPool :=
  let orphanHash := env.blockHash orphan.block.header
  let prevHash := orphan.block.header.prevBlock
  let orphans := (p.waiting prevHash).filter fun o => env.blockHash o.block.header ≠ orphanHash
  { p with
    orphans := p.orphans.erase orphanHash
    prevOrphans := setWaiting p.prevOrphans prevHash orphans }

/-- The step of `addOrphanBlock` for an orphan of the pool, at a time. -/
def visitOrphan (p : OrphanPool) (visit : OrphanBlock × ℤ) : OrphanPool :=
  if visit.1.expiration < visit.2 then removeOrphanBlock env p visit.1
  else { p with oldestOrphan := olderOrphan p.oldestOrphan visit.1 }

/-- Where the pool is full, the oldest orphan makes room. -/
def evictOrphan (p : OrphanPool) : Except Err OrphanPool :=
  if p.orphans.size + 1 ≤ maxOrphanBlocks then pure p
  else match p.oldestOrphan with
    | none => .error .panic
    | some oldest => pure { removeOrphanBlock env p oldest with oldestOrphan := none }

/-- The end of `addOrphanBlock`: puts an orphan into both indexes. -/
def insertOrphan (p : OrphanPool) (orphan : OrphanBlock) : OrphanPool :=
  { p with
    orphans := p.orphans.insert (env.blockHash orphan.block.header) orphan
    prevOrphans := p.prevOrphans.insert orphan.block.header.prevBlock
      (p.waiting orphan.block.header.prevBlock ++ [orphan]) }

/-- `addOrphanBlock`, with the orphans of the pool in the order in which they are visited. -/
def addOrphanBlock (p : OrphanPool) (visits : List (OrphanBlock × ℤ)) (now : ℤ) (block : MsgBlock) :
    Except Err OrphanPool := do
  let p ← evictOrphan env (visits.foldl (visitOrphan env) p)
  pure (insertOrphan env p ⟨block, now + orphanLifetime⟩)

/-- `processOrphans`, over the hashes of the blocks that were accepted, with the answers of
`maybeAcceptBlock`. Hashes for which no orphans are left are skipped. -/
def processOrphans : List Bool → List Hash → OrphanPool → OrphanPool
  | [], _, p => p
  | accepted :: answers, hashes, p =>
    match hashes.findSome? fun hash => (p.waiting hash).head? with
    | none => p
    | some orphan =>
      if accepted then
        processOrphans answers (hashes ++ [env.blockHash orphan.block.header])
          (removeOrphanBlock env p orphan)
      else removeOrphanBlock env p orphan

/-- The calls that change the pool. -/
inductive OrphanCall
  | add (visits : List (OrphanBlock × ℤ)) (now : ℤ) (block : MsgBlock)
  | remove (orphan : OrphanBlock)
  | process (answers : List Bool) (hash : Hash)

/-- The pool after a call. -/
def step (p : OrphanPool) : OrphanCall → Except Err OrphanPool
  | .add visits now block => addOrphanBlock env p visits now block
  | .remove orphan => pure (removeOrphanBlock env p orphan)
  | .process answers hash => pure (processOrphans env answers [hash] p)

/-- An orphan is in the pool. -/
def Holds (p : OrphanPool) (o : OrphanBlock) : Prop :=
  p.orphans[env.blockHash o.block.header]? = some o

instance (p : OrphanPool) (o : OrphanBlock) : Decidable (p.Holds env o) :=
  inferInstanceAs (Decidable (_ = _))

/-- An orphan waits for a block, directly or for other orphans that do. -/
inductive Descends (p : OrphanPool) (hash : Hash) : OrphanBlock → Prop
  | child {o : OrphanBlock} : p.Holds env o → o.block.header.prevBlock = hash → Descends p hash o
  | next {o o' : OrphanBlock} : Descends p hash o → p.Holds env o' →
    o'.block.header.prevBlock = env.blockHash o.block.header → Descends p hash o'

/-- Every orphan is listed once, under its parent. The oldest one is in the pool, which is not too
large. -/
structure Sound (p : OrphanPool) : Prop where
  hashed : ∀ (hash : Hash) (o : OrphanBlock), p.orphans[hash]? = some o →
    env.blockHash o.block.header = hash
  listed : ∀ (prev : Hash) (o : OrphanBlock), o ∈ p.waiting prev ↔ o.block.header.prevBlock = prev ∧
    p.Holds env o
  once : ∀ prev, (p.waiting prev).Nodup
  nonempty : ∀ prev : Hash, p.prevOrphans[prev]? ≠ some []
  size : p.orphans.size ≤ maxOrphanBlocks
  oldest : ∀ o ∈ p.oldestOrphan, p.Holds env o

/-- The calls that do not make the oldest orphan leave the pool, other than by an eviction. A block
that is added is not in the pool, and each orphan is visited once. -/
def Keeps (p : OrphanPool) : OrphanCall → Prop
  | .add visits _ block => (visits.map Prod.fst).Nodup ∧ (∀ visit ∈ visits, p.Holds env visit.1) ∧
      p.orphans[env.blockHash block.header]? = none ∧
      ∀ visit ∈ visits, visit.1 ∈ p.oldestOrphan → visit.2 ≤ visit.1.expiration
  | .remove orphan => p.Holds env orphan ∧ orphan ∉ p.oldestOrphan
  | .process _ hash => ∀ o ∈ p.oldestOrphan, ¬ p.Descends env hash o

variable {env} {p : OrphanPool} {orphan o : OrphanBlock}

/-- The list of one parent is set. -/
theorem getElem?_setWaiting (m : Std.ExtTreeMap Hash (List OrphanBlock)) (prev q : Hash)
    (l : List OrphanBlock) :
    (setWaiting m prev l)[q]? = if q = prev then (if l = [] then none else some l) else m[q]? := by
  unfold setWaiting
  by_cases hq : q = prev
  · subst hq
    rw [if_pos rfl]
    split_ifs <;> simp
  · rw [if_neg hq]
    split_ifs <;> simp [getElem?_erase, Std.ExtTreeMap.getElem?_insert, Ne.symm hq]

/-- Who waits after an orphan is removed. -/
theorem waiting_removeOrphanBlock (prev : Hash) : (p.removeOrphanBlock env orphan).waiting prev =
    if prev = orphan.block.header.prevBlock then
      (p.waiting prev).filter fun o =>
        env.blockHash o.block.header ≠ env.blockHash orphan.block.header
    else p.waiting prev := by
  rw [waiting, removeOrphanBlock, getElem?_setWaiting]
  split_ifs with hprev hempty
  · rw [hprev, hempty]
    rfl
  · rw [hprev]
    rfl
  · rfl

/-- What the pool holds after an orphan is removed. -/
theorem holds_removeOrphanBlock : (p.removeOrphanBlock env orphan).Holds env o ↔
    p.Holds env o ∧ env.blockHash o.block.header ≠ env.blockHash orphan.block.header := by
  rw [Holds, removeOrphanBlock, getElem?_erase, Holds]
  by_cases hhash : env.blockHash orphan.block.header = env.blockHash o.block.header
  · simp [hhash]
  · simp [hhash, Ne.symm hhash]

/-- `removeOrphanBlock` keeps the pool sound. -/
theorem Sound.removeOrphanBlock (h : Sound env p) (ho : p.Holds env orphan)
    (hoff : orphan ∉ p.oldestOrphan) :
    Sound env (p.removeOrphanBlock env orphan) where
  hashed := fun hash o hhash => by
    rw [OrphanPool.removeOrphanBlock, getElem?_erase] at hhash
    split_ifs at hhash
    exact h.hashed hash o hhash
  listed := fun prev o => by
    rw [waiting_removeOrphanBlock, holds_removeOrphanBlock]
    split_ifs with hprev
    · simp [h.listed, and_assoc]
    · rw [h.listed]
      refine ⟨fun ⟨hparent, hholds⟩ =>
        ⟨hparent, hholds, fun hhash => hprev ?_⟩, fun ⟨hparent, hholds, _⟩ =>
        ⟨hparent, hholds⟩⟩
      -- An orphan of the same hash is the one that is removed.
      rw [Holds, hhash, ho] at hholds
      rw [← hparent, Option.some.inj hholds]
  once := fun prev => by
    rw [waiting_removeOrphanBlock]
    split_ifs
    · exact (h.once prev).filter _
    · exact h.once prev
  nonempty := fun prev => by
    rw [OrphanPool.removeOrphanBlock, getElem?_setWaiting]
    split_ifs with hprev hempty
    · simp
    · simpa using hempty
    · exact h.nonempty prev
  size := size_erase_le.trans h.size
  oldest := fun o hold => by
    refine holds_removeOrphanBlock.2 ⟨h.oldest o hold, fun hhash => hoff ?_⟩
    have hholds := h.oldest o hold
    rw [Holds, hhash, ho] at hholds
    rwa [Option.some.inj hholds]

theorem waiting_insertOrphan (prev : Hash) : (p.insertOrphan env orphan).waiting prev =
    if prev = orphan.block.header.prevBlock then p.waiting prev ++ [orphan]
      else p.waiting prev := by
  rw [waiting, insertOrphan, Std.ExtTreeMap.getElem?_insert]
  by_cases hprev : prev = orphan.block.header.prevBlock
  · simp [hprev]
  · simp [hprev, Ne.symm hprev, waiting]

/-- What the pool holds after an orphan is added. -/
theorem holds_insertOrphan (hfresh : p.orphans[env.blockHash orphan.block.header]? = none) :
    (p.insertOrphan env orphan).Holds env o ↔ p.Holds env o ∨ o = orphan := by
  rw [Holds, insertOrphan, Std.ExtTreeMap.getElem?_insert]
  by_cases hhash : env.blockHash orphan.block.header = env.blockHash o.block.header
  · rw [hhash] at hfresh
    simp [hhash, Holds, hfresh, eq_comm]
  · have hne : o ≠ orphan := fun heq => hhash (heq ▸ rfl)
    simp [hhash, Holds, hne]

/-- A new orphan keeps the pool sound where there is room. -/
theorem Sound.insertOrphan (h : Sound env p)
    (hfresh : p.orphans[env.blockHash orphan.block.header]? = none)
    (hroom : p.orphans.size + 1 ≤ maxOrphanBlocks) : Sound env (p.insertOrphan env orphan) where
  hashed := fun hash o hhash => by
    rw [OrphanPool.insertOrphan, Std.ExtTreeMap.getElem?_insert] at hhash
    split_ifs at hhash with heq
    · simp only [Option.some.injEq] at hhash
      rw [← hhash]
      simpa using heq
    · exact h.hashed hash o hhash
  listed := fun prev o => by
    rw [waiting_insertOrphan, holds_insertOrphan hfresh]
    split_ifs with hprev
    · rw [mem_append, h.listed, mem_singleton, and_or_left]
      exact or_congr_right ⟨fun heq => ⟨heq ▸ hprev.symm, heq⟩, And.right⟩
    · rw [h.listed]
      exact ⟨fun ⟨hparent, hholds⟩ => ⟨hparent, .inl hholds⟩, fun ⟨hparent, hholds⟩ =>
        ⟨hparent, hholds.resolve_right fun heq => hprev (by rw [← hparent, heq])⟩⟩
  once := fun prev => by
    rw [waiting_insertOrphan]
    split_ifs
    · rw [← concat_eq_append]
      refine (h.once prev).concat fun hmem => ?_
      have hholds := ((h.listed prev orphan).1 hmem).2
      rw [Holds, hfresh] at hholds
      cases hholds
    · exact h.once prev
  nonempty := fun prev => by
    rw [OrphanPool.insertOrphan, Std.ExtTreeMap.getElem?_insert]
    split_ifs
    · simp
    · exact h.nonempty prev
  size := size_insert_le.trans hroom
  oldest := fun o hold => (holds_insertOrphan hfresh).2 (.inl (h.oldest o hold))

theorem mem_olderOrphan {oldest : Option OrphanBlock} (h : o ∈ olderOrphan oldest orphan) :
    o = orphan ∨ o ∈ oldest := by
  unfold olderOrphan at h
  split at h
  · exact .inl (Option.some.inj h).symm
  · split_ifs at h
    · exact .inl (Option.some.inj h).symm
    · exact .inr h

/-- The loop that looks for old orphans keeps the pool sound. -/
theorem Sound.visitOrphans (h : Sound env p) {visits : List (OrphanBlock × ℤ)}
    (hnodup : (visits.map Prod.fst).Nodup) (hholds : ∀ visit ∈ visits, p.Holds env visit.1)
    (hkept : ∀ visit ∈ visits, visit.1 ∈ p.oldestOrphan → visit.2 ≤ visit.1.expiration)
    {hash : Hash}
    (hfresh : p.orphans[hash]? = none) : Sound env (visits.foldl (visitOrphan env) p) ∧
      (visits.foldl (visitOrphan env) p).orphans[hash]? = none := by
  induction visits generalizing p with
  | nil => exact ⟨h, hfresh⟩
  | cons visit visits ih =>
    rw [map_cons, nodup_cons] at hnodup
    obtain ⟨ho, hholds⟩ := forall_mem_cons.1 hholds
    obtain ⟨hkept₀, hkept⟩ := forall_mem_cons.1 hkept
    have hne : ∀ v ∈ visits, v.1 ≠ visit.1 := fun v hv heq => hnodup.1 (heq ▸ mem_map_of_mem hv)
    rw [foldl_cons]
    by_cases hexpired : visit.1.expiration < visit.2
    · rw [visitOrphan, if_pos hexpired]
      have hoff : visit.1 ∉ p.oldestOrphan := fun hold => absurd (hkept₀ hold) (not_le.2 hexpired)
      refine ih (h.removeOrphanBlock ho hoff) hnodup.2 (fun v hv => ?_) hkept ?_
      · refine holds_removeOrphanBlock.2 ⟨hholds v hv, fun hhash => hne v hv ?_⟩
        have hv' := hholds v hv
        rw [Holds, hhash, ho] at hv'
        exact (Option.some.inj hv').symm
      · rw [OrphanPool.removeOrphanBlock, getElem?_erase]
        split_ifs
        · rfl
        · exact hfresh
    · rw [visitOrphan, if_neg hexpired]
      refine ih { h with oldest := fun o hold => ?_ } hnodup.2 hholds (fun v hv hold => ?_) hfresh
      · obtain rfl | hold := mem_olderOrphan hold
        · exact ho
        · exact h.oldest o hold
      · exact hkept v hv ((mem_olderOrphan hold).resolve_left (hne v hv))

/-- Eviction makes room. -/
theorem Sound.evictOrphan (h : Sound env p) {p' : OrphanPool} (hevict : evictOrphan env p = .ok p')
    {hash : Hash} (hfresh : p.orphans[hash]? = none) :
    Sound env p' ∧ p'.orphans.size + 1 ≤ maxOrphanBlocks ∧ p'.orphans[hash]? = none := by
  unfold OrphanPool.evictOrphan at hevict
  split_ifs at hevict with hroom
  · obtain rfl := Except.ok.inj hevict
    exact ⟨h, hroom, hfresh⟩
  cases hold : p.oldestOrphan with
  | none => simp [hold] at hevict
  | some oldest =>
    simp only [hold] at hevict
    obtain rfl := Except.ok.inj hevict
    have ho := h.oldest oldest hold
    have hsound : Sound env { p with oldestOrphan := none } := { h with oldest := nofun }
    refine ⟨hsound.removeOrphanBlock ho nofun, ?_, ?_⟩
    · have hcontains : p.orphans.contains (env.blockHash oldest.block.header) = true := by
        rw [contains_eq_isSome_getElem?, ho]
        rfl
      have hsize := h.size
      rw [OrphanPool.removeOrphanBlock, size_erase, if_pos hcontains]
      unfold maxOrphanBlocks at *
      omega
    · simp only [OrphanPool.removeOrphanBlock, getElem?_erase]
      split_ifs
      · rfl
      · exact hfresh

/-- All orphans that are taken out wait for the block that was accepted. -/
theorem Sound.processOrphans {p0 : OrphanPool} {hash0 : Hash} (h : Sound env p)
    (answers : List Bool) {hashes : List Hash} (hsub : ∀ o, p.Holds env o → p0.Holds env o)
    (hhashes : ∀ hash ∈ hashes, hash = hash0 ∨ ∃ o, p0.Descends env hash0 o ∧
      env.blockHash o.block.header = hash)
    (hold : ∀ o ∈ p.oldestOrphan, ¬ p0.Descends env hash0 o) :
    Sound env (processOrphans env answers hashes p) := by
  induction answers generalizing hashes p with
  | nil => exact h
  | cons accepted answers ih =>
    rw [OrphanPool.processOrphans]
    cases hnext : hashes.findSome? fun hash => (p.waiting hash).head? with
    | none => exact h
    | some orphan =>
      obtain ⟨hash, hhash, hhead⟩ := exists_of_findSome?_eq_some hnext
      obtain ⟨hprev, ho⟩ := (h.listed hash orphan).1 (mem_of_head? hhead)
      have hdescends : p0.Descends env hash0 orphan := by
        obtain rfl | ⟨o, hdescends, heq⟩ := hhashes hash hhash
        · exact .child (hsub orphan ho) hprev
        · exact .next hdescends (hsub orphan ho) (hprev.trans heq.symm)
      have hsound := h.removeOrphanBlock ho fun hmem => hold orphan hmem hdescends
      split_ifs
      · refine ih hsound (fun o hholds => hsub o (holds_removeOrphanBlock.1 hholds).1)
          (fun hash hhash => ?_) hold
        obtain hhash | hhash := mem_append.1 hhash
        · exact hhashes hash hhash
        · exact .inr ⟨orphan, hdescends, (mem_singleton.1 hhash).symm⟩
      · exact hsound

/-- The pools after calls that keep the oldest orphan. -/
inductive KeepingRun (env : Env) : OrphanPool → Prop
  | empty : KeepingRun env ⟨∅, ∅, none⟩
  | call {p p' : OrphanPool} {call : OrphanCall} : KeepingRun env p → p.Keeps env call →
    p.step env call = .ok p' → KeepingRun env p'

/-- The empty pool is sound. -/
theorem sound_empty : Sound env ⟨∅, ∅, none⟩ where
  hashed := by simp
  listed := by simp [waiting, Holds]
  once := by simp [waiting]
  nonempty := by simp
  size := by simp
  oldest := by simp

/-- Every call keeps the pool sound. -/
theorem Sound.step (h : Sound env p) {call : OrphanCall} {p' : OrphanPool}
    (hkeeps : p.Keeps env call) (hstep : p.step env call = .ok p') : Sound env p' := by
  cases call with
  | add visits now block =>
    obtain ⟨hnodup, hholds, hfresh, hkept⟩ := hkeeps
    simp only [OrphanPool.step, addOrphanBlock, bind_eq_ok, pure_eq_ok] at hstep
    obtain ⟨q, hevict, rfl⟩ := hstep
    obtain ⟨hsound, hnone⟩ := h.visitOrphans hnodup hholds hkept hfresh
    obtain ⟨hsound, hroom, hnone⟩ := hsound.evictOrphan hevict hnone
    exact hsound.insertOrphan hnone hroom
  | remove orphan =>
    obtain rfl := Except.ok.inj hstep
    exact h.removeOrphanBlock hkeeps.1 hkeeps.2
  | process answers hash =>
    obtain rfl := Except.ok.inj hstep
    exact h.processOrphans answers (fun _ => id) (by simp) hkeeps

/-- As long as the oldest orphan leaves the pool by evictions only, the indexes agree and the pool
is bounded. -/
theorem sound_of_keepingRun (h : KeepingRun env p) : Sound env p := by
  induction h with
  | empty => exact sound_empty
  | call _ hkeeps hstep ih => exact ih.step hkeeps hstep

/-- A block without a parent, with a nonce. -/
def sampleOrphan (nonce : ℕ) : MsgBlock := ⟨sampleHeader 9 8 nonce 7 7, [], []⟩

/-- The first of two orphans is remembered when the second one comes, which is then removed. -/
theorem sound_sampleOrphan : ∃ p, KeepingRun (sampleEnv sampleParams) p ∧
    p.oldestOrphan = some ⟨sampleOrphan 1, 3600⟩ ∧ p.orphans.size = 1 ∧
    Sound (sampleEnv sampleParams) p := by
  have hone : KeepingRun (sampleEnv sampleParams) _ := .call .empty
    (show OrphanPool.Keeps _ _ (.add [] 0 (sampleOrphan 1)) from ⟨nodup_nil, nofun, by simp, nofun⟩)
    (eq_ok_valueOf (by decide +kernel))
  have htwo : KeepingRun (sampleEnv sampleParams) _ := .call hone
    (show OrphanPool.Keeps _ _ (.add [(⟨sampleOrphan 1, 3600⟩, 1)] 1 (sampleOrphan 2)) from
      ⟨by simp, by decide +kernel, by decide +kernel, by decide +kernel⟩)
        (eq_ok_valueOf (by decide +kernel))
  have hthree : KeepingRun (sampleEnv sampleParams) _ := .call htwo
    (show OrphanPool.Keeps _ _
      (.remove ⟨sampleOrphan 2, 3601⟩) from ⟨by decide +kernel, by decide +kernel⟩)
    (eq_ok_valueOf (by decide +kernel))
  exact ⟨_, hthree, by decide +kernel, by decide +kernel, sound_of_keepingRun hthree⟩

/-- The first of two orphans is remembered when the second one comes, and then accepted. -/
theorem exists_oldest_not_held : ∃ p,
    ([.add [] 0 (sampleOrphan 1), .add [(⟨sampleOrphan 1, 3600⟩, 1)] 1 (sampleOrphan 2),
      .process [true, false] (sampleBlockHash 7)] : List OrphanCall).foldlM
        (OrphanPool.step (sampleEnv sampleParams)) ⟨∅, ∅, none⟩ = .ok p ∧
    p.oldestOrphan = some ⟨sampleOrphan 1, 3600⟩ ∧ p.orphans.size = 0 := by decide +kernel

end OrphanPool

end Hcashd.Blockchain
