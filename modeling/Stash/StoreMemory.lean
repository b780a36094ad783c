import Stash.Store

/-!
# Writing a key, and making room for it

All single-key writes go through `writeKey`, which drops the key if its time is over and hands
the operation the value that is left.  Without a memory limit the result is simply stored.  With
one, the write is sized first: the whole keyspace is measured, expired keys are swept on the way,
and keys are evicted until the write fits, or the write is refused.

Eviction samples keys and takes the one that was not used for the longest time.  Which keys are
sampled depends on the clock and on map iteration; every choice is covered.
-/

namespace Stash

open GoMap List

namespace Store

/-! ## Scanning the keyspace -/

/-- All keys and values, shard by shard. -/
def allEntries (s : Store) (order : MapOrder Bytes) : List (Bytes × ValueObject) :=
  (List.finRange s.shardCount).flatMap fun i => iterate order (s.shards i)

/-- `totalKeyCountLocked`. -/
def totalKeyCountLocked (s : Store) : Nat :=
  ((List.finRange s.shardCount).map fun i => (s.shards i).keys.length).sum

/-- `noteExpiredKeysLocked`. -/
def noteExpiredKeysLocked (s : Store) (keys : List Bytes) : Store :=
  { s with pendingExpired := s.pendingExpired ++ keys }

/-- `publishExpiredKeys`. -/
def publishExpiredKeys (s : Store) : Store :=
  if s.pendingExpired = [] then s
  else { s with pendingExpired := [], published := s.published ++ [s.pendingExpired] }

/-- `recalculateUsedMemoryLocked`. -/
def recalculateUsedMemoryLocked (s : Store) (now : Int) (order : MapOrder Bytes) : Store :=
  let entries := s.allEntries order
  let expired := (entries.filter fun e => isExpired e.2.expiresAt now).map Prod.fst
  let used := ((entries.filter fun e => !isExpired e.2.expiresAt now).map fun e =>
    approximateValueObjectSize e.1 e.2).sum
  let swept := expired.foldl removeKeyLocked s
  ({ swept with usedMemory := used }).noteExpiredKeysLocked expired

/-- `totalEvictableMemoryLocked`. -/
def totalEvictableMemoryLocked (s : Store) (protectedKeys : List Bytes) : Int :=
  (((s.allEntries (MapOrder.id Bytes)).filter fun e => e.1 ∉ protectedKeys).map fun e =>
    approximateValueObjectSize e.1 e.2).sum

/-! ## Eviction -/

/-- `sampleKeysLocked`: the scan starts at a shard that the clock selects. -/
def sampleKeysLocked (s : Store) (now : Instant) (order : MapOrder Bytes) : List Bytes :=
  (((List.finRange s.shardCount).rotate (now.nanos % s.shardCount)).flatMap fun i =>
    (iterate order (s.shards i)).map Prod.fst).take s.memoryEvictionSampleSize

/-- One candidate of `findStalestCandidateLocked` against the stalest so far. -/
def stalerCandidate (s : Store) (protectedKeys : List Bytes) (stalest : Bytes × Int)
    (key : Bytes) : Bytes × Int :=
  if key ∈ protectedKeys then stalest
  else
    match s.lookup key with
    | none => stalest
    | some value =>
      if value.lastAccessedAt < stalest.2 then (key, value.lastAccessedAt) else stalest

/-- `findStalestCandidateLocked`: the empty string stands for no candidate. -/
def findStalestCandidateLocked (s : Store) (protectedKeys : List Bytes) (env : Env) : Bytes :=
  let sampled := (s.sampleKeysLocked (env.clock 0) (env.order 0)).foldl
    (s.stalerCandidate protectedKeys) ([], 2 ^ 63 - 1)
  if sampled.1 ≠ [] then sampled.1
  else
    (((s.allEntries (env.order 1)).map Prod.fst).foldl (s.stalerCandidate protectedKeys) sampled).1

/-- The loop of `evictUntilMemoryAtOrBelowLocked`.  Every round removes a key, so a round for
each key is enough. -/
def evictLoop (protectedKeys : List Bytes) (targetUsed : Int) :
    Nat → Store → Env → List Bytes → Store × List Bytes
  | 0, s, _, evicted => (s, evicted)
  | rounds + 1, s, env, evicted =>
    if s.usedMemory ≤ targetUsed then (s, evicted)
    else
      let candidate := s.findStalestCandidateLocked protectedKeys env
      if candidate = [] then (s, evicted)
      else
        match s.lookup candidate with
        | none => evictLoop protectedKeys targetUsed rounds s (env.after 2) evicted
        | some _ =>
          evictLoop protectedKeys targetUsed rounds (s.deleteKeyLocked candidate) (env.after 2)
            (evicted ++ [candidate])

/-- `evictUntilMemoryAtOrBelowLocked`. -/
def evictUntilMemoryAtOrBelowLocked (s : Store) (targetUsed : Int) (protectedKeys : List Bytes)
    (env : Env) : Store × Except StorageError (List Bytes) :=
  let (s', evicted) := evictLoop protectedKeys targetUsed s.totalKeyCountLocked s env []
  if s'.usedMemory ≤ targetUsed then (s', .ok evicted) else (s', .error .memoryLimitExceeded)

/-- `ensureMemoryAvailableLocked`. -/
def ensureMemoryAvailableLocked (s : Store) (delta : Int) (protectedKeys : List Bytes)
    (env : Env) : Store × Except StorageError (List Bytes) :=
  if !s.maxMemoryEnabled || delta ≤ 0 then (s, .ok [])
  else
    let measured := s.recalculateUsedMemoryLocked (env.now 0) (env.order 0)
    let targetUsed := s.maxMemory - delta
    if targetUsed < 0 then (measured, .error .memoryLimitExceeded)
    else if measured.usedMemory ≤ targetUsed then (measured, .ok [])
    else if targetUsed < measured.usedMemory - measured.totalEvictableMemoryLocked protectedKeys then
      (measured, .error .memoryLimitExceeded)
    else measured.evictUntilMemoryAtOrBelowLocked targetUsed protectedKeys (env.after 1)

/-! ## Writes of one key -/

/-- `keyWrite`: what an operation is handed. -/
structure KeyWrite where
  current : Option ValueObject
  now : Instant
  accounting : Bool

/-- What an operation does with its key. -/
inductive WriteAction (ρ : Type) where
  /-- give up -/
  | fail (err : StorageError)
  /-- change the stored value where it lies -/
  | inPlace (value : ValueObject) (result : ρ)
  /-- store a value through `commit` -/
  | commit (value : ValueObject) (result : ρ)

/-- `approximateValueObjectSize` of the value a write replaces. -/
def sizeOfCurrent (key : Bytes) : Option ValueObject → Int
  | none => 0
  | some value => approximateValueObjectSize key value

/-- `commit` and `commitValueWithEvictionLocked`. -/
def commit (s : Store) (key : Bytes) (write : KeyWrite) (newValue : ValueObject) (env : Env) :
    Store × Except StorageError (List Bytes) :=
  if write.accounting then
    let delta := approximateValueObjectSize key newValue - sizeOfCurrent key write.current
    match s.ensureMemoryAvailableLocked delta [key] env with
    | (s', .error err) => (s', .error err)
    | (s', .ok evicted) => ((s'.setKeyLocked key newValue).addUsed delta, .ok evicted)
  else (s.setKeyLocked key newValue, .ok [])

/-- Carry out what an operation decided. -/
def perform {ρ : Type} (s : Store) (key : Bytes) (write : KeyWrite) (env : Env) :
    WriteAction ρ → Store × Except StorageError (ρ × List Bytes)
  | .fail err => (s, .error err)
  | .inPlace value result => (s.put key value, .ok (result, []))
  | .commit value result =>
    match s.commit key write value env with
    | (s', .error err) => (s', .error err)
    | (s', .ok evicted) => (s', .ok (result, evicted))

/-- `writeKey`: the first reading of the clock decides what has expired. -/
def writeKey {ρ : Type} (s : Store) (key : Bytes) (env : Env) (fn : KeyWrite → WriteAction ρ) :
    Store × Except StorageError (ρ × List Bytes) :=
  let now := env.clock 0
  let accounting := s.maxMemoryEnabled
  let (prepared, current) := s.prepareExistingValueLocked key now.millis
  let write : KeyWrite := ⟨current, now, accounting⟩
  let (s', result) := prepared.perform key write (env.after 2) (fn write)
  (if accounting then s'.publishExpiredKeys else s', result)

/-- `readKey`: an expired key is dropped after another look at the clock; a successful read
refreshes the access stamp. -/
def readKey {ρ : Type} (s : Store) (key : Bytes) (env : Env)
    (fn : ValueObject → Except StorageError ρ) : Store × Except StorageError (Option ρ) :=
  match s.lookup key with
  | none => (s, .ok none)
  | some value =>
    if isExpired value.expiresAt (env.now 0) then
      (if isExpired value.expiresAt (env.now 1) then s.deleteKeyLocked key else s, .ok none)
    else
      match fn value with
      | .error err => (s, .error err)
      | .ok result => (s.put key (value.touch (env.now 0)), .ok (some result))

/-! ## What a scan sees -/

theorem mem_allEntries {s : Store} {order : MapOrder Bytes} {key : Bytes} {value : ValueObject} :
    (key, value) ∈ s.allEntries order ↔ s.lookup key = some value := by
  rw [allEntries, mem_flatMap]
  constructor
  · rintro ⟨i, -, hmem⟩
    rw [GoMap.mem_iterate] at hmem
    have hkey : key ∈ s.shards i := AList.lookup_isSome.mp (by rw [hmem]; rfl)
    rw [lookup, s.placed i key hkey]
    exact hmem
  · intro h
    exact ⟨s.shardIndex key, mem_finRange _, mem_iterate.mpr h⟩

variable (s : Store) (protectedKeys : List Bytes)

variable (keys : List Bytes) (now : Int) (order : MapOrder Bytes) (k : Bytes)

/-- A scan meets no key twice: not within a shard, and not in two shards. -/
theorem nodup_allEntries : ((s.allEntries order).map Prod.fst).Nodup := by
  rw [allEntries, map_flatMap, nodup_flatMap]
  refine ⟨fun i _ => nodup_iterate, (nodup_finRange _).imp fun hne => ?_⟩
  intro key hleft hright
  simp only [iterate_fst, (order.perm _).mem_iff] at hleft hright
  exact hne ((s.placed _ key hleft).symm.trans (s.placed _ key hright))

theorem nodup_entries : (s.allEntries order).Nodup :=
  (s.nodup_allEntries order).of_map

/-- The entry of a key, if it has one. -/
def entryOf (key : Bytes) : List (Bytes × ValueObject) :=
  (s.lookup key).toList.map fun value => (key, value)

/-- **A store that differs in one key at most** has its entry and the other entries. -/
theorem allEntries_perm {s s' : Store} {key : Bytes} (h : ∀ k, k ≠ key → s'.lookup k = s.lookup k)
    (order order' : MapOrder Bytes) : (s'.allEntries order').Perm
      (s'.entryOf key ++ (s.allEntries order).filter fun e => e.1 ∉ [key]) := by
  have hown : ∀ k value, (k, value) ∈ s'.entryOf key ↔ k = key ∧ s'.lookup k = some value := by
    intro k value
    simp only [entryOf, mem_map, Option.mem_toList, Prod.mk.injEq]
    constructor
    · rintro ⟨_, hvalue, rfl, rfl⟩
      exact ⟨rfl, hvalue⟩
    · rintro ⟨rfl, hvalue⟩
      exact ⟨value, hvalue, rfl, rfl⟩
  have hothers : ∀ k value, (k, value) ∈ (s.allEntries order).filter (fun e => e.1 ∉ [key]) ↔
      k ≠ key ∧ s'.lookup k = some value := by
    intro k value
    rw [mem_filter, mem_allEntries, decide_eq_true_eq, mem_singleton, and_comm]
    exact and_congr_right fun hk => by rw [h k hk]
  have hnodup : (s'.entryOf key).Nodup := by
    unfold entryOf
    cases s'.lookup key with
    | none => exact nodup_nil
    | some value => exact nodup_singleton _
  refine (perm_ext_iff_of_nodup (s'.nodup_entries order')
    (hnodup.append ((s.nodup_entries order).filter _) ?_)).mpr ?_
  · rintro ⟨k, value⟩ hleft hright
    exact ((hothers k value).mp hright).1 ((hown k value).mp hleft).1
  · rintro ⟨k, value⟩
    rw [mem_append, mem_allEntries, hown, hothers]
    by_cases hk : k = key <;> simp [hk]

theorem lookup_foldl_removeKey (s : Store) (k : Bytes) :
    (keys.foldl removeKeyLocked s).lookup k = if k ∈ keys then none else s.lookup k := by
  induction keys generalizing s with
  | nil => rfl
  | cons key keys ih =>
    rw [foldl_cons, ih, lookup_removeKey]
    by_cases hk : k = key
    · simp [hk]
    · simp [hk]

theorem maxMemory_foldl_removeKey (s : Store) :
    (keys.foldl removeKeyLocked s).maxMemory = s.maxMemory := by
  induction keys generalizing s with
  | nil => rfl
  | cons key keys ih => rw [foldl_cons, ih, maxMemory_removeKey]

/-- The keys that are past their deadline, in whatever order the map gives them. -/
theorem mem_expired :
    k ∈ ((s.allEntries order).filter fun e => isExpired e.2.expiresAt now).map Prod.fst ↔
      ∃ value, s.lookup k = some value ∧ isExpired value.expiresAt now = true := by
  rw [mem_map]
  constructor
  · rintro ⟨⟨key, value⟩, he, rfl⟩
    rw [mem_filter] at he
    exact ⟨value, mem_allEntries.mp he.1, he.2⟩
  · rintro ⟨value, hvalue, hexpired⟩
    exact ⟨(k, value), mem_filter.mpr ⟨mem_allEntries.mpr hvalue, hexpired⟩, rfl⟩

/-- **Measuring the keyspace sweeps what has expired, and nothing else.** -/
theorem lookup_recalculate :
    (s.recalculateUsedMemoryLocked now order).lookup k = liveValue (s.lookup k) now := by
  change ((((s.allEntries order).filter fun e => isExpired e.2.expiresAt now).map Prod.fst).foldl
    removeKeyLocked s).lookup k = _
  have hmem := s.mem_expired now order k
  rw [lookup_foldl_removeKey]
  cases hlookup : s.lookup k with
  | none => exact ite_self none
  | some value =>
    simp only [hlookup, Option.some.injEq, exists_eq_left'] at hmem
    rw [liveValue_some]
    exact if_congr hmem rfl rfl

@[simp] theorem maxMemory_recalculate :
    (s.recalculateUsedMemoryLocked now order).maxMemory = s.maxMemory :=
  maxMemory_foldl_removeKey _ s

@[simp] theorem lookup_publish : s.publishExpiredKeys.lookup k = s.lookup k := by
  unfold publishExpiredKeys
  split <;> rfl

@[simp] theorem maxMemory_publish : s.publishExpiredKeys.maxMemory = s.maxMemory := by
  unfold publishExpiredKeys
  split <;> rfl

/-- Publishing what is queued, while accounting, moves no key. -/
theorem lookup_publish_if (accounting : Bool) :
    (if accounting then s.publishExpiredKeys else s).lookup k = s.lookup k := by
  cases accounting <;> simp

/-! ## What eviction removes -/

/-- A key that may be evicted. -/
def Evictable (s : Store) (protectedKeys : List Bytes) (key : Bytes) : Prop :=
  key ∉ protectedKeys ∧ (s.lookup key).isSome

theorem stalerCandidate_fst (stalest : Bytes × Int) (key : Bytes) :
    s.stalerCandidate protectedKeys stalest key = stalest ∨
      (s.stalerCandidate protectedKeys stalest key).1 = key ∧ s.Evictable protectedKeys key := by
  unfold stalerCandidate
  by_cases hfree : key ∈ protectedKeys
  · exact .inl (if_pos hfree)
  · rw [if_neg hfree]
    cases hlookup : s.lookup key with
    | none => exact .inl rfl
    | some value =>
      simp only
      split
      · exact .inr ⟨rfl, hfree, by rw [hlookup]; rfl⟩
      · exact .inl rfl

theorem foldl_stalerCandidate_fst (protectedKeys keys : List Bytes) (stalest : Bytes × Int) :
    (keys.foldl (s.stalerCandidate protectedKeys) stalest).1 = stalest.1 ∨
      s.Evictable protectedKeys (keys.foldl (s.stalerCandidate protectedKeys) stalest).1 := by
  induction keys generalizing stalest with
  | nil => exact .inl rfl
  | cons key keys ih =>
    rw [foldl_cons]
    rcases ih (s.stalerCandidate protectedKeys stalest key) with h | h
    · rw [h]
      rcases s.stalerCandidate_fst protectedKeys stalest key with hstep | ⟨hstep, hkey⟩
      · exact .inl (congrArg Prod.fst hstep)
      · rw [hstep]
        exact .inr hkey
    · exact .inr h

/-- A candidate is stored, and never a protected key. -/
theorem evictable_findStalestCandidateLocked (env : Env)
    (h : s.findStalestCandidateLocked protectedKeys env ≠ []) :
    s.Evictable protectedKeys (s.findStalestCandidateLocked protectedKeys env) := by
  unfold findStalestCandidateLocked at *
  simp only at *
  split at h
  · rename_i hsampled
    rw [if_pos hsampled]
    exact (foldl_stalerCandidate_fst s protectedKeys _ _).resolve_left hsampled
  · rename_i hsampled
    rw [if_neg hsampled]
    refine (foldl_stalerCandidate_fst s protectedKeys _ _).resolve_left fun heq => h ?_
    rw [heq]
    exact not_not.mp hsampled

/-- `s'` is what is left of `s` after keys were removed. -/
structure Shrinks (s s' : Store) : Prop where
  kept : ∀ k, s'.lookup k = none ∨ s'.lookup k = s.lookup k
  limit : s'.maxMemory = s.maxMemory

theorem Shrinks.refl : Shrinks s s :=
  ⟨fun _ => .inr rfl, rfl⟩

theorem Shrinks.trans {s t u : Store} (h : Shrinks s t) (h' : Shrinks t u) : Shrinks s u := by
  refine ⟨fun k => ?_, h'.limit.trans h.limit⟩
  rcases h'.kept k with hk | hk
  · exact .inl hk
  · rw [hk]
    exact h.kept k

theorem Shrinks.absent {s s' : Store} (h : Shrinks s s') {k : Bytes} (hk : s.lookup k = none) :
    s'.lookup k = none := by
  rcases h.kept k with h | h
  · exact h
  · rw [h, hk]

theorem shrinks_deleteKey (key : Bytes) : Shrinks s (s.deleteKeyLocked key) := by
  refine ⟨fun k => ?_, maxMemory_deleteKey s key⟩
  rw [lookup_deleteKey]
  split
  · exact .inl rfl
  · exact .inr rfl

theorem shrinks_recalculate : Shrinks s (s.recalculateUsedMemoryLocked now order) := by
  refine ⟨fun k => ?_, maxMemory_recalculate s now order⟩
  rw [lookup_recalculate]
  cases s.lookup k with
  | none => exact .inl rfl
  | some value =>
    rw [liveValue_some]
    split
    · exact .inl rfl
    · exact .inr rfl

/-- `t` is left of `s` after the keys were evicted one by one, none of them protected. -/
inductive Evictions (protectedKeys : List Bytes) : Store → List Bytes → Store → Prop where
  | done (s : Store) : Evictions protectedKeys s [] s
  | evict {s t : Store} {key : Bytes} {keys : List Bytes} (evictable : s.Evictable protectedKeys key)
    (rest : Evictions protectedKeys (s.deleteKeyLocked key) keys t) :
    Evictions protectedKeys s (key :: keys) t

/-- **The loop evicts key by key what it reports**: an induction over the rounds. -/
theorem evictLoop_evictions (targetUsed : Int) (rounds : Nat)
    (s : Store) (env : Env) (evicted : List Bytes) :
    ∃ keys, (evictLoop protectedKeys targetUsed rounds s env evicted).2 = evicted ++ keys ∧
      Evictions protectedKeys s keys (evictLoop protectedKeys targetUsed rounds s env evicted).1 := by
  induction rounds generalizing s env evicted with
  | zero => exact ⟨[], (append_nil _).symm, .done s⟩
  | succ rounds ih =>
    unfold evictLoop
    simp only
    split
    · exact ⟨[], (append_nil _).symm, .done s⟩
    · split
      · exact ⟨[], (append_nil _).symm, .done s⟩
      · rename_i hcandidate
        have hevictable := s.evictable_findStalestCandidateLocked protectedKeys env hcandidate
        split
        · exact ih s (env.after 2) evicted
        · set candidate := s.findStalestCandidateLocked protectedKeys env
          obtain ⟨keys, hkeys, hrest⟩ :=
            ih (s.deleteKeyLocked candidate) (env.after 2) (evicted ++ [candidate])
          refine ⟨candidate :: keys, ?_, .evict hevictable hrest⟩
          rw [hkeys, append_assoc, singleton_append]

namespace Evictions

variable {protectedKeys keys : List Bytes} {s t : Store}

section

variable (h : Evictions protectedKeys s keys t)
include h

theorem shrinks : Shrinks s t := by
  induction h with
  | done s => exact .refl s
  | evict _ _ ih => exact (shrinks_deleteKey _ _).trans ih

/-- Every evicted key was stored and not protected, and is gone. -/
theorem gone {k : Bytes} (hk : k ∈ keys) : s.Evictable protectedKeys k ∧ t.lookup k = none := by
  induction h with
  | done => cases hk
  | @evict s t key keys hevictable hrest ih =>
    by_cases heq : k = key
    · subst heq
      refine ⟨hevictable, hrest.shrinks.absent ?_⟩
      rw [lookup_deleteKey, if_pos rfl]
    · obtain ⟨⟨hfree, hstored⟩, hnone⟩ := ih ((mem_cons.mp hk).resolve_left heq)
      rw [lookup_deleteKey, if_neg heq] at hstored
      exact ⟨⟨hfree, hstored⟩, hnone⟩

/-- **Eviction removes no key that it does not report.** -/
theorem kept {k : Bytes} (hk : k ∉ keys) : t.lookup k = s.lookup k := by
  induction h with
  | done => rfl
  | evict _ _ ih =>
    rw [mem_cons, not_or] at hk
    rw [ih hk.2, lookup_deleteKey, if_neg hk.1]

theorem nodup : keys.Nodup := by
  induction h with
  | done => exact nodup_nil
  | evict _ hrest ih =>
    refine nodup_cons.mpr ⟨fun hagain => ?_, ih⟩
    have hstored := (hrest.gone hagain).1.2
    rw [lookup_deleteKey, if_pos rfl] at hstored
    cases hstored

end

end Evictions

/-- Eviction removes what it reports; protected keys stay. -/
theorem evictLoop_spec (protectedKeys : List Bytes) (targetUsed : Int) (rounds : Nat) (s : Store)
    (env : Env) :
    Shrinks s (evictLoop protectedKeys targetUsed rounds s env []).1 ∧
      (∀ k ∈ protectedKeys,
        (evictLoop protectedKeys targetUsed rounds s env []).1.lookup k = s.lookup k) ∧
      ∀ k ∈ (evictLoop protectedKeys targetUsed rounds s env []).2, k ∉ protectedKeys ∧
        (evictLoop protectedKeys targetUsed rounds s env []).1.lookup k = none := by
  obtain ⟨keys, hkeys, h⟩ := evictLoop_evictions protectedKeys targetUsed rounds s env []
  rw [nil_append] at hkeys
  rw [hkeys]
  refine ⟨h.shrinks, fun k hk => h.kept fun hevicted => ?_, fun k hk => ?_⟩
  · exact (h.gone hevicted).1.1 hk
  · exact ⟨(h.gone hk).1.1, (h.gone hk).2⟩

/-- Making room leaves a protected key alone that is live when the store is measured. -/
theorem lookup_ensureMemory {s : Store} {key : Bytes} {protectedKeys : List Bytes}
    {env : Env} (hkey : key ∈ protectedKeys)
    (hlive : liveValue (s.lookup key) (env.now 0) = s.lookup key) (delta : Int) :
    (s.ensureMemoryAvailableLocked delta protectedKeys env).1.lookup key = s.lookup key := by
  have hmeasured : (s.recalculateUsedMemoryLocked (env.now 0) (env.order 0)).lookup key =
      s.lookup key := by
    rw [lookup_recalculate, hlive]
  have hloop := (evictLoop_spec protectedKeys (s.maxMemory - delta)
    (s.recalculateUsedMemoryLocked (env.now 0) (env.order 0)).totalKeyCountLocked
    (s.recalculateUsedMemoryLocked (env.now 0) (env.order 0)) (env.after 1)).2.1 key hkey
  unfold ensureMemoryAvailableLocked evictUntilMemoryAtOrBelowLocked
  simp only
  split
  · rfl
  · split
    · exact hmeasured
    · split
      · exact hmeasured
      · split
        · exact hmeasured
        · split
          · exact hloop.trans hmeasured
          · exact hloop.trans hmeasured

/-- **Making room** only removes keys; on success the evicted ones are gone and none of them is
protected. -/
theorem ensureMemory_spec (s : Store) (delta : Int) (protectedKeys : List Bytes) (env : Env) :
    Shrinks s (s.ensureMemoryAvailableLocked delta protectedKeys env).1 ∧
      ∀ evicted, (s.ensureMemoryAvailableLocked delta protectedKeys env).2 = .ok evicted →
        ∀ k ∈ evicted, k ∉ protectedKeys ∧
          (s.ensureMemoryAvailableLocked delta protectedKeys env).1.lookup k = none := by
  have hmeasured := shrinks_recalculate s (env.now 0) (env.order 0)
  unfold ensureMemoryAvailableLocked evictUntilMemoryAtOrBelowLocked
  simp only
  split
  · refine ⟨.refl s, fun evicted h k hk => ?_⟩
    cases h
    cases hk
  · split
    · exact ⟨hmeasured, fun _ h => by cases h⟩
    · split
      · refine ⟨hmeasured, fun evicted h k hk => ?_⟩
        cases h
        cases hk
      · split
        · exact ⟨hmeasured, fun _ h => by cases h⟩
        · obtain ⟨hshrinks, -, hgone⟩ := evictLoop_spec protectedKeys (s.maxMemory - delta)
            (s.recalculateUsedMemoryLocked (env.now 0) (env.order 0)).totalKeyCountLocked
            (s.recalculateUsedMemoryLocked (env.now 0) (env.order 0)) (env.after 1)
          split
          · refine ⟨hmeasured.trans hshrinks, fun evicted h k hk => ?_⟩
            cases h
            exact hgone k hk
          · exact ⟨hmeasured.trans hshrinks, fun _ h => by cases h⟩

/-! ## What a write does -/

theorem commit_spec (s : Store) (key : Bytes) (write : KeyWrite) (value : ValueObject) (env : Env) :
    (∀ k, k ≠ key → (s.commit key write value env).1.lookup k = none ∨
        (s.commit key write value env).1.lookup k = s.lookup k) ∧
      (s.commit key write value env).1.maxMemory = s.maxMemory ∧
      ∀ evicted, (s.commit key write value env).2 = .ok evicted →
        (s.commit key write value env).1.lookup key = some value ∧
        ∀ k ∈ evicted, k ≠ key ∧ (s.commit key write value env).1.lookup k = none := by
  unfold commit
  split
  · obtain ⟨hshrinks, hevicted⟩ := s.ensureMemory_spec
      (approximateValueObjectSize key value - sizeOfCurrent key write.current) [key] env
    simp only
    split
    · rename_i s' err hensure
      rw [hensure] at hshrinks
      exact ⟨fun k _ => hshrinks.kept k, hshrinks.limit, fun _ h => by cases h⟩
    · rename_i s' evicted hensure
      rw [hensure] at hshrinks hevicted
      refine ⟨fun k hk => ?_, ?_, fun evicted' h => ⟨?_, fun k hk => ?_⟩⟩
      · rw [lookup_addUsed, lookup_setKey, if_neg hk]
        exact hshrinks.kept k
      · rw [maxMemory_addUsed, maxMemory_setKey]
        exact hshrinks.limit
      · rw [lookup_addUsed, lookup_setKey, if_pos rfl]
      · cases h
        obtain ⟨hfree, hnone⟩ := hevicted evicted rfl k hk
        have hne : k ≠ key := fun heq => hfree (mem_singleton.mpr heq)
        refine ⟨hne, ?_⟩
        rw [lookup_addUsed, lookup_setKey, if_neg hne]
        exact hnone
  · refine ⟨fun k hk => ?_, maxMemory_setKey _ _ _, fun evicted h => ⟨?_, fun k hk => ?_⟩⟩
    · rw [lookup_setKey, if_neg hk]
      exact .inr rfl
    · rw [lookup_setKey, if_pos rfl]
    · cases h
      cases hk

/-- The operation of `writeKey` is handed what is live under the key. -/
theorem writeKey_eq {ρ : Type} (s : Store) (key : Bytes) (env : Env)
    (fn : KeyWrite → WriteAction ρ) :
    s.writeKey key env fn =
      ((s.prepareExistingValueLocked key (env.now 0)).1.perform key
        ⟨liveValue (s.lookup key) (env.now 0), env.clock 0, s.maxMemoryEnabled⟩ (env.after 2)
        (fn ⟨liveValue (s.lookup key) (env.now 0), env.clock 0, s.maxMemoryEnabled⟩)).map
          (fun t => if s.maxMemoryEnabled then t.publishExpiredKeys else t) id := by
  rw [← s.prepare_snd]
  rfl

/-- The keys a successful write evicts are gone afterwards, and it never changes the limit. -/
theorem writeKey_spec {ρ : Type} (s : Store) (key : Bytes) (env : Env)
    (fn : KeyWrite → WriteAction ρ) :
    (s.writeKey key env fn).1.maxMemory = s.maxMemory ∧
      ∀ result evicted, (s.writeKey key env fn).2 = .ok (result, evicted) →
        ∀ k ∈ evicted, (s.writeKey key env fn).1.lookup k = none := by
  have hprepared : (s.prepareExistingValueLocked key (env.clock 0).millis).1.maxMemory =
      s.maxMemory := maxMemory_prepare _ _ _
  have hpublish : ∀ (b : Bool) (t : Store),
      (if b then t.publishExpiredKeys else t).maxMemory = t.maxMemory := by
    intro b t
    cases b <;> simp
  unfold writeKey
  simp only [hpublish, lookup_publish_if]
  generalize s.prepareExistingValueLocked key (env.clock 0).millis = prepared at hprepared
  generalize fn ⟨prepared.2, env.clock 0, s.maxMemoryEnabled⟩ = action
  cases action with
  | fail err => exact ⟨hprepared, fun _ _ h => by cases h⟩
  | inPlace value result =>
    refine ⟨hprepared, fun result' evicted h k hk => ?_⟩
    obtain ⟨-, rfl⟩ := Prod.mk.inj (Except.ok.inj h)
    cases hk
  | commit value result =>
    obtain ⟨-, hlimit, hevicted⟩ := prepared.1.commit_spec key
      ⟨prepared.2, env.clock 0, s.maxMemoryEnabled⟩ value (env.after 2)
    unfold perform
    simp only
    split
    · rename_i s' err hcommit
      rw [hcommit] at hlimit
      exact ⟨hlimit.trans hprepared, fun _ _ h => by cases h⟩
    · rename_i s' evicted hcommit
      rw [hcommit] at hlimit hevicted
      refine ⟨hlimit.trans hprepared, fun result' evicted' h k hk => ?_⟩
      obtain ⟨-, rfl⟩ := Prod.mk.inj (Except.ok.inj h)
      exact ((hevicted evicted rfl).2 k hk).2

/-- What an operation without a memory limit leaves under its key. -/
def WriteAction.leaves {ρ : Type} (live : Option ValueObject) : WriteAction ρ → Option ValueObject
  | .fail _ => live
  | .inPlace value _ => some value
  | .commit value _ => some value

/-- What an operation without a memory limit answers. -/
def WriteAction.answer {ρ : Type} : WriteAction ρ → Except StorageError (ρ × List Bytes)
  | .fail err => .error err
  | .inPlace _ result => .ok (result, [])
  | .commit _ result => .ok (result, [])

/-- **Without a memory limit a write touches its own key only**, and evicts nothing. -/
theorem writeKey_plain {ρ : Type} {s : Store} (hplain : s.maxMemoryEnabled = false) (key : Bytes)
    (env : Env) (fn : KeyWrite → WriteAction ρ) :
    (s.writeKey key env fn).2 =
        (fn ⟨liveValue (s.lookup key) (env.now 0), env.clock 0, false⟩).answer ∧
      ∀ k, (s.writeKey key env fn).1.lookup k =
        if k = key then
          (fn ⟨liveValue (s.lookup key) (env.now 0), env.clock 0, false⟩).leaves
            (liveValue (s.lookup key) (env.now 0)) else s.lookup k := by
  have hprepared := fun k => s.lookup_prepare key k (env.now 0)
  rw [writeKey_eq, hplain]
  generalize hfn : fn ⟨liveValue (s.lookup key) (env.now 0), env.clock 0, false⟩ = action
  cases action with
  | fail err => exact ⟨rfl, hprepared⟩
  | inPlace value result =>
    refine ⟨rfl, fun k => ?_⟩
    change ((s.prepareExistingValueLocked key (env.now 0)).1.put key value).lookup k = _
    rw [lookup_put, hprepared]
    split <;> rfl
  | commit value result =>
    refine ⟨rfl, fun k => ?_⟩
    change ((s.prepareExistingValueLocked key (env.now 0)).1.setKeyLocked key value).lookup k = _
    rw [lookup_setKey, hprepared]
    split <;> rfl

end Store

end Stash
