import Stash.Eviction
import Stash.ExpirySweeps

/-!
# Reports of expired keys

A key whose time is over is removed by whoever comes across it.  A write removes its own key, a reader
goes back for the key with the write lock, and two sweeps remove what they pass: the background loop
and the measuring of the keyspace by an accounted write.  The sweeps queue the keys they removed, and
any goroutine that calls `publishExpiredKeys` hands the whole queue to the listener.

The steps here are what runs under a lock.  A step works with readings of the clock that were taken
before it got its locks, so a reading may be any moment up to now.  A log that the program does not have
records each removal for expiry, found by comparing the stores before and after it: what an operation
removed while it answers that the key is absent, and what a sweep or the measuring removed.
-/

namespace Stash

open GoMap List

/-! ## The parts of an operation that run under a lock -/

namespace Store

/-- `dropIfStillExpired`. -/
def dropIfStillExpired (s : Store) (key : Bytes) (now : Int) : Store :=
  if (s.lookup key).any fun value => isExpired value.expiresAt now then s.deleteKeyLocked key else s

/-- The part of `readKey` under the read lock, when the key is live and the read succeeds. -/
def touchLive (s : Store) (key : Bytes) (now : Int) : Store :=
  match s.lookup key with
  | none => s
  | some value => if isExpired value.expiresAt now then s else s.put key (value.touch now)

/-- The part of `evictExpiredSample` under the locks of the sampled shards. -/
def sweepExpired (s : Store) (keys : List Bytes) (now : Int) : Store :=
  ((s.expiredKeys keys now).foldl deleteKeyLocked s).noteExpiredKeysLocked (s.expiredKeys keys now)

/-- The part of `writeKey` under its locks; whether memory is accounted was read before. -/
def writeKeyLocked {ρ : Type} (s : Store) (key : Bytes) (env : Env) (accounting : Bool)
    (fn : KeyWrite → WriteAction ρ) : Store × Except StorageError (ρ × List Bytes) :=
  let (prepared, current) := s.prepareExistingValueLocked key (env.now 0)
  prepared.perform key ⟨current, env.clock 0, accounting⟩ (env.after 2)
    (fn ⟨current, env.clock 0, accounting⟩)

variable (s : Store) (now : Int)

theorem writeKey_eq_locked {ρ : Type} (key : Bytes) (env : Env) (fn : KeyWrite → WriteAction ρ) :
    (s.writeKey key env fn).1 =
      if s.maxMemoryEnabled then
        (s.writeKeyLocked key env s.maxMemoryEnabled fn).1.publishExpiredKeys
      else (s.writeKeyLocked key env s.maxMemoryEnabled fn).1 := rfl

theorem evictExpiredSample_eq_sweep (sampleSize : Nat) (env : Env) :
    ∃ keys, s.evictExpiredSample sampleSize env =
      (s.sweepExpired keys (env.now 0)).publishExpiredKeys :=
  ⟨_, rfl⟩

/-- A read is the look under the read lock, and the removal if the key was found expired. -/
theorem readKey_eq_parts {ρ : Type} (key : Bytes) (env : Env)
    (fn : ValueObject → Except StorageError ρ) :
    (s.readKey key env fn).1 = s ∨ (s.readKey key env fn).1 = s.touchLive key (env.now 0) ∨
      (s.readKey key env fn).1 = s.dropIfStillExpired key (env.now 1) := by
  unfold readKey touchLive dropIfStillExpired
  cases s.lookup key with
  | none => exact .inl rfl
  | some value =>
    by_cases hexpired : isExpired value.expiresAt (env.now 0) = true
    · exact .inr (.inr (by simp [hexpired]))
    · cases hfn : fn value with
      | error err => exact .inl (by simp [hexpired, hfn])
      | ok result => exact .inr (.inl (by simp [hexpired, hfn]))

/-- The answer of taking tells whether there was something to take from. -/
def tells {ρ : Type} (fn : Payload → Except StorageError (Option (Payload × ρ))) (payload : Payload) :
    Except StorageError (Option (Payload × Option ρ)) :=
  (fn payload).map fun r => r.map fun left => (left.1, some left.2)

theorem shrinkKey_tells {ρ : Type} (key : Bytes) (env : Env) (stamp : Int) (absent : ρ)
    (fn : Payload → Except StorageError (Option (Payload × ρ))) :
    (s.shrinkKey key env stamp none (tells fn)).1 = (s.shrinkKey key env stamp absent fn).1 := by
  unfold shrinkKey tells
  cases s.lookup key with
  | none => rfl
  | some value =>
    by_cases hexpired : isExpired value.expiresAt (env.now 0) = true
    · simp only [if_pos hexpired]
    · simp only [if_neg hexpired]
      rcases fn value.payload with err | _ | ⟨payload, result⟩
      · rfl
      · rfl
      · simp only [Except.map, Option.map_some]
        split <;> rfl

/-! ## What vanishes -/

/-- The keys, with their values, that were there before and are not there after. -/
def removedBetween (s s' : Store) : List (Bytes × ValueObject) :=
  (s.allEntries (MapOrder.id Bytes)).filter fun e => (s'.lookup e.1).isNone

theorem mem_removedBetween {s s' : Store} {key : Bytes} {value : ValueObject} :
    (key, value) ∈ s.removedBetween s' ↔ s.lookup key = some value ∧ s'.lookup key = none := by
  rw [removedBetween, mem_filter, mem_allEntries, Option.isNone_iff_eq_none]

theorem nodup_removedBetween (s s' : Store) : ((s.removedBetween s').map Prod.fst).Nodup :=
  (s.nodup_allEntries _).sublist (filter_sublist.map Prod.fst)

/-- **Only what has expired by the reading vanishes**, and nothing else changes. -/
def Sheds (now : Int) (s s' : Store) : Prop :=
  ∀ key, s'.lookup key = s.lookup key ∨
    s'.lookup key = none ∧ ∃ value, s.lookup key = some value ∧ isExpired value.expiresAt now = true

theorem Sheds.expired {now : Int} {s s' : Store} (h : Sheds now s s') {e : Bytes × ValueObject}
    (he : e ∈ s.removedBetween s') : isExpired e.2.expiresAt now = true := by
  obtain ⟨hbefore, hafter⟩ := mem_removedBetween.mp he
  rcases h e.1 with hsame | ⟨-, value, hvalue, hexpired⟩
  · rw [hafter, hbefore] at hsame
    cases hsame
  · rw [hbefore] at hvalue
    cases hvalue
    exact hexpired

theorem perm_removedBetween {s s' : Store} {gone : List Bytes} (hnodup : gone.Nodup)
    (hstored : ∀ key ∈ gone, ∃ value, s.lookup key = some value)
    (h : ∀ key, s'.lookup key = if key ∈ gone then none else s.lookup key) :
    gone.Perm ((s.removedBetween s').map Prod.fst) := by
  refine (perm_ext_iff_of_nodup hnodup (nodup_removedBetween s s')).mpr fun key => ?_
  rw [mem_map]
  constructor
  · intro hkey
    obtain ⟨value, hvalue⟩ := hstored key hkey
    exact ⟨(key, value), mem_removedBetween.mpr ⟨hvalue, by rw [h, if_pos hkey]⟩, rfl⟩
  · rintro ⟨⟨key, value⟩, hmem, rfl⟩
    obtain ⟨hbefore, hafter⟩ := mem_removedBetween.mp hmem
    by_contra hkey
    rw [h, if_neg hkey, hbefore] at hafter
    cases hafter

theorem sheds_of_live {now : Int} {s s' : Store}
    (h : ∀ key, s'.lookup key = s.lookup key ∨ s'.lookup key = liveValue (s.lookup key) now) :
    Sheds now s s' := by
  intro key
  rcases h key with hsame | hlive
  · exact .inl hsame
  · rw [hlive]
    cases s.lookup key with
    | none => exact .inl rfl
    | some value =>
      rw [liveValue_some]
      split
      · exact .inr ⟨rfl, value, rfl, ‹_›⟩
      · exact .inl rfl

/-! ### The removals of the program -/

variable (key : Bytes) (keys : List Bytes) (order : MapOrder Bytes)

theorem sheds_deleteKey {now : Int} {s : Store} {key : Bytes} {value : ValueObject}
    (hvalue : s.lookup key = some value) (hexpired : isExpired value.expiresAt now = true) :
    Sheds now s (s.deleteKeyLocked key) := by
  intro k
  rw [lookup_deleteKey]
  by_cases hk : k = key
  · exact .inr ⟨if_pos hk, value, hk ▸ hvalue, hexpired⟩
  · exact .inl (if_neg hk)

theorem sheds_dropIfStillExpired (now : Int) : Sheds now s (s.dropIfStillExpired key now) := by
  unfold dropIfStillExpired
  split
  · rename_i hexpired
    obtain ⟨value, hvalue, hpassed⟩ := (Option.any_eq_true _ _).mp hexpired
    exact sheds_deleteKey hvalue hpassed
  · exact fun _ => .inl rfl

theorem SameQueue.dropIfStillExpired (now : Int) : SameQueue s (s.dropIfStillExpired key now) := by
  unfold Store.dropIfStillExpired
  split
  · exact SameQueue.deletion s s key (.refl s)
  · exact .refl s

theorem SameQueue.touchLive (now : Int) : SameQueue s (s.touchLive key now) := by
  unfold Store.touchLive
  split
  · exact .refl s
  · split
    · exact .refl s
    · exact ⟨rfl, rfl⟩

theorem sheds_prepare (now : Int) : Sheds now s (s.prepareExistingValueLocked key now).1 := by
  refine sheds_of_live fun k => ?_
  rw [lookup_prepare]
  by_cases hk : k = key
  · subst hk
    exact .inr (if_pos rfl)
  · exact .inl (if_neg hk)

/-- A collection that is stored has something to take from. -/
theorem take_ne_none {m : Mutation} {env : Env} {stamp : Int} {absent : Datum}
    {fn : Payload → Except StorageError (Option (Payload × Datum))}
    (h : m.plan env = .take stamp absent fn) {payload : Payload} (hsound : payload.Sound) :
    fn payload ≠ .ok none := by
  have htaking : ∀ {ρ : Type} {datum : ρ → Datum} {stamp' absent'}
      {fn' : Payload → Except StorageError (Option (Payload × ρ))}, fn' payload ≠ .ok none →
      Plan.taking datum stamp' absent' fn' = .take stamp absent fn → fn payload ≠ .ok none := by
    intro ρ datum stamp' absent' fn' hne hplan
    cases hplan
    simp only
    rcases hfn : fn' payload with err | _ | left
    · exact fun h => by cases h
    · exact absurd hfn hne
    · exact fun h => by cases h
  have hlist : ∀ left count, Store.popPayload left payload ≠ .ok none ∧
      Store.popNPayload left count payload ≠ .ok none := by
    intro left count
    rcases payload with _ | (_ | ⟨item, items⟩) | _ | _ | _ | _
    case list.nil => exact absurd rfl hsound
    all_goals cases left <;> exact ⟨fun h => (by cases h), fun h => by cases h⟩
  cases m with
  | pop left => exact htaking (hlist left 0).1 h
  | popN left count =>
    simp only [Mutation.plan] at h
    split at h
    · cases h
    · exact htaking (hlist left _).2 h
  | hDel | sRem =>
    simp only [Mutation.plan] at h
    split at h
    · cases h
    · refine htaking ?_ h
      cases payload <;> exact fun h => by cases h
  | set | increment | pfAdd | delete => cases h
  | setBit | push | zAdd | xAdd | hSet | sAdd =>
    simp only [Mutation.plan] at h
    split at h <;> cases h

/-- **What taking removes while it answers that the key is absent has expired.** -/
theorem sheds_shrinkKey {ρ : Type} {s : Store} {key : Bytes} {env : Env} {stamp : Int}
    {fn : Payload → Except StorageError (Option (Payload × ρ))}
    (hfn : ∀ payload : Payload, payload.Sound → fn payload ≠ .ok none)
    (habsent : (s.shrinkKey key env stamp none (tells fn)).2 = .ok none) :
    Sheds (env.now 0) s (s.shrinkKey key env stamp none (tells fn)).1 := by
  unfold shrinkKey tells at habsent ⊢
  cases hvalue : s.lookup key with
  | none => exact fun _ => .inl rfl
  | some value =>
    rw [hvalue] at habsent
    by_cases hexpired : isExpired value.expiresAt (env.now 0) = true
    · simp only [if_pos hexpired]
      exact sheds_deleteKey hvalue hexpired
    · -- the value is live, so the answer is its own
      simp only [if_neg hexpired] at habsent
      rcases htaken : fn value.payload with err | _ | ⟨payload, result⟩
      · rw [htaken] at habsent
        cases habsent
      · exact absurd htaken (hfn _ value.sound)
      · rw [htaken] at habsent
        simp only [Except.map, Option.map_some] at habsent
        split at habsent <;> cases habsent

/-- And what DEL removes without counting it. -/
theorem sheds_delete {s : Store} {key : Bytes} {env : Env} (habsent : (s.delete key env).2 = false) :
    Sheds (env.now 0) s (s.delete key env).1 := by
  unfold delete at habsent ⊢
  cases hvalue : s.lookup key with
  | none => exact fun _ => .inl rfl
  | some value =>
    rw [hvalue] at habsent
    exact sheds_deleteKey hvalue (by simpa using habsent)

theorem sheds_recalculate : Sheds now s (s.recalculateUsedMemoryLocked now order) :=
  sheds_of_live fun k => .inr (lookup_recalculate s now order k)

theorem nodup_expiredNow : (s.expiredNow now order).Nodup :=
  (s.nodup_allEntries order).sublist (filter_sublist.map Prod.fst)

/-- **Measuring queues what it removes.** -/
theorem perm_recalculate :
    (s.expiredNow now order).Perm
      ((s.removedBetween (s.recalculateUsedMemoryLocked now order)).map Prod.fst) :=
  perm_removedBetween (s.nodup_expiredNow now order)
    (fun _ hkey => (mem_expiredNow.mp hkey).imp fun _ => And.left)
    (lookup_foldl_removeKey (s.expiredNow now order) s)

theorem sweptKeys_recalculate :
    (s.recalculateUsedMemoryLocked now order).sweptKeys = s.sweptKeys ++ s.expiredNow now order := by
  rw [sweptKeys, pendingExpired_recalculate, published_recalculate, ← append_assoc]
  rfl

theorem lookup_sweepExpired (now : Int) (k : Bytes) :
    (s.sweepExpired keys now).lookup k =
      if k ∈ s.expiredKeys keys now then none else s.lookup k :=
  s.lookup_foldl_deleteKey _ k

theorem mem_expiredKeys {s : Store} {keys : List Bytes} {now : Int} {k : Bytes} :
    k ∈ s.expiredKeys keys now ↔
      k ∈ keys ∧ ∃ value, s.lookup k = some value ∧ isExpired value.expiresAt now = true := by
  rw [expiredKeys, mem_filter, Option.any_eq_true]

theorem sheds_sweepExpired (now : Int) : Sheds now s (s.sweepExpired keys now) := by
  intro k
  rw [lookup_sweepExpired]
  by_cases hk : k ∈ s.expiredKeys keys now
  · exact .inr ⟨if_pos hk, (mem_expiredKeys.mp hk).2⟩
  · exact .inl (if_neg hk)

/-- **The background sweep queues what it removes.** -/
theorem perm_sweepExpired {s : Store} {keys : List Bytes} (hkeys : keys.Nodup) (now : Int) :
    (s.expiredKeys keys now).Perm ((s.removedBetween (s.sweepExpired keys now)).map Prod.fst) :=
  perm_removedBetween (hkeys.filter _)
    (fun _ hkey => (mem_expiredKeys.mp hkey).2.imp fun _ => And.left)
    (s.lookup_sweepExpired keys now)

theorem sweptKeys_sweepExpired (now : Int) :
    (s.sweepExpired keys now).sweptKeys = s.sweptKeys ++ s.expiredKeys keys now := by
  have hqueue := @KeptByDeletion.foldl _ s (SameQueue.deletion s) (s.expiredKeys keys now) (.refl s)
  change ((s.expiredKeys keys now).foldl deleteKeyLocked s).published.flatten ++
    (((s.expiredKeys keys now).foldl deleteKeyLocked s).pendingExpired ++ s.expiredKeys keys now) = _
  rw [hqueue.published, hqueue.pending, ← append_assoc]
  rfl

theorem SameQueue.sweptKeys {s s' : Store} (h : SameQueue s s') : s'.sweptKeys = s.sweptKeys := by
  unfold Store.sweptKeys
  rw [h.pending, h.published]

theorem sweptKeys_publish : s.publishExpiredKeys.sweptKeys = s.sweptKeys :=
    by
  unfold publishExpiredKeys
  split
  · rfl
  · simp [sweptKeys]

/-! ### The measuring of an accounted write -/

/-- The write measures the keyspace: it needs room, and memory is limited. -/
def measures {ρ : Type} (s : Store) (key : Bytes) (write : KeyWrite) : WriteAction ρ → Bool
  | .commit value _ =>
    write.accounting && s.maxMemoryEnabled &&
      decide (0 < approximateValueObjectSize key value - sizeOfCurrent key write.current)
  | _ => false

theorem sameQueue_ensureMemory (delta : Int) (protectedKeys : List Bytes) (env : Env) :
    SameQueue (if s.maxMemoryEnabled && decide (0 < delta) then
        s.recalculateUsedMemoryLocked (env.now 0) (env.order 0) else s)
      (s.ensureMemoryAvailableLocked delta protectedKeys env).1 := by
  unfold ensureMemoryAvailableLocked evictUntilMemoryAtOrBelowLocked
  simp only
  by_cases hmeasured : s.maxMemoryEnabled = true ∧ 0 < delta
  · rw [if_pos (by simp [hmeasured]), if_neg (by simp [hmeasured])]
    split
    · exact .refl _
    · split
      · exact .refl _
      · split
        · exact .refl _
        · obtain ⟨keys, -, hevictions⟩ := evictLoop_evictions protectedKeys (s.maxMemory - delta)
            (s.recalculateUsedMemoryLocked (env.now 0) (env.order 0)).totalKeyCountLocked
            (s.recalculateUsedMemoryLocked (env.now 0) (env.order 0)) (env.after 1) []
          split <;> exact (SameQueue.deletion _).evictions hevictions (.refl _)
  · have hskip : (!s.maxMemoryEnabled || decide (delta ≤ 0)) = true := by
      by_cases henabled : s.maxMemoryEnabled = true
      · simp [henabled, Int.not_lt.mp fun hpos => hmeasured ⟨henabled, hpos⟩]
      · simp [henabled]
    rw [if_neg (by simpa using hmeasured), if_pos hskip]
    exact .refl s

/-- **A write queues what its measuring removes**, and nothing else. -/
theorem sameQueue_perform {ρ : Type} (key : Bytes) (write : KeyWrite) (env : Env)
    (action : WriteAction ρ) :
    SameQueue (if s.measures key write action then
        s.recalculateUsedMemoryLocked (env.now 0) (env.order 0) else s)
      (s.perform key write env action).1 := by
  cases action with
  | fail err => exact .refl s
  | inPlace value result => exact ⟨rfl, rfl⟩
  | commit value result =>
    have hroom := s.sameQueue_ensureMemory
      (approximateValueObjectSize key value - sizeOfCurrent key write.current) [key] env
    unfold perform commit measures
    cases write.accounting with
    | false => exact SameQueue.setKeyLocked s key value
    | true =>
      simp only [if_true, Bool.true_and]
      rcases hensure : s.ensureMemoryAvailableLocked
        (approximateValueObjectSize key value - sizeOfCurrent key write.current) [key] env
        with ⟨t, err | evicted⟩
      · rw [hensure] at hroom
        exact hroom
      · rw [hensure] at hroom
        exact hroom.trans ((SameQueue.setKeyLocked t key value).trans (SameQueue.addUsed _ _))

end Store

/-! ## The steps -/

/-- Who removed a key. -/
inductive Cause where
  | writer
  | reader
  | sweep
  deriving DecidableEq

/-- A removal for expiry: the value that was removed, and when. -/
structure Removal where
  key : Bytes
  value : ValueObject
  clock : Int
  cause : Cause

/-- The store, the time, and the calls of `publishExpiredKeys` that are still to come. -/
structure Reclaiming where
  store : Store
  clock : Int
  owing : Nat
  removals : List Removal

/-- The steps that run under a lock, with the readings of the clock they carry. -/
inductive ReclaimStep where
  | tick (later : Int)
  | find (key : Bytes) (now : Int)
  | drop (key : Bytes) (now : Int)
  | write (key : Bytes) (env : Env) (accounting : Bool)
    (fn : Store.KeyWrite → Store.WriteAction Datum)
  | take (key : Bytes) (m : Mutation) (env : Env)
  | delete (key : Bytes) (env : Env)
  | sweep (keys : List Bytes) (now : Int)
  /-- the measuring of `ConfigureMaxMemory`, `EnforceMaxMemory` and `ReplaceWith` -/
  | measure (now : Int) (order : MapOrder Bytes)
  | limit (maxMemory : Int)
  | publish

namespace Reclaiming

/-- Any store, with or without a limit, whose queue is empty. -/
def start (s : Store) (clock : Int) : Reclaiming :=
  ⟨{ s with pendingExpired := [], published := [] }, clock, 0, []⟩

/-- Go on with another store; what is not in it any more was removed for expiry. -/
def remove (st : Reclaiming) (cause : Cause) (s : Store) : Reclaiming :=
  { st with
    store := s
    removals := st.removals ++
      (st.store.removedBetween s).map fun e => ⟨e.1, e.2, st.clock, cause⟩ }

/-- A write first removes its own key if its time is over, then its measuring removes what it passes,
and then it does what it is for. -/
def afterWrite (st : Reclaiming) (key : Bytes) (env : Env) (accounting : Bool)
    (fn : Store.KeyWrite → Store.WriteAction Datum) : Reclaiming :=
  let prepared := st.store.prepareExistingValueLocked key (env.now 0)
  let write : Store.KeyWrite := ⟨prepared.2, env.clock 0, accounting⟩
  let own := st.remove .writer prepared.1
  let measured := if prepared.1.measures key write (fn write) then
    own.remove .sweep
      (prepared.1.recalculateUsedMemoryLocked ((env.after 2).now 0) ((env.after 2).order 0))
    else own
  { measured with
    store := (st.store.writeKeyLocked key env accounting fn).1
    owing := if accounting then st.owing + 1 else st.owing }

/-- What an operation removed while it answers that the key is absent, it removed for expiry. -/
def answered (st : Reclaiming) (found : Bool) (s : Store) : Reclaiming :=
  if found then { st with store := s } else st.remove .writer s

/-- Whether the answer of taking is that there was something to take from. -/
def found : Except StorageError (Option Datum) → Bool
  | .ok none => false
  | _ => true

/-- One step. -/
def step (st : Reclaiming) : ReclaimStep → Option Reclaiming
  | .tick later => if st.clock ≤ later then some { st with clock := later } else none
  | .find key now =>
    if now ≤ st.clock then some { st with store := st.store.touchLive key now } else none
  | .drop key now =>
    if now ≤ st.clock then some (st.remove .reader (st.store.dropIfStillExpired key now)) else none
  | .write key env accounting fn =>
    if env.now 0 ≤ st.clock ∧ env.now 2 ≤ st.clock then
      some (st.afterWrite key env accounting fn)
    else none
  | .take key m env =>
    match m.plan env with
    | .take stamp _ fn =>
      let taken := st.store.shrinkKey key env stamp none (Store.tells fn)
      if env.now 0 ≤ st.clock then some (st.answered (found taken.2) taken.1) else none
    | _ => none
  | .delete key env =>
    let deleted := st.store.delete key env
    if env.now 0 ≤ st.clock then some (st.answered deleted.2 deleted.1) else none
  | .sweep keys now =>
    if now ≤ st.clock ∧ keys.Nodup then
      some { st.remove .sweep (st.store.sweepExpired keys now) with
        owing := if st.store.expiredKeys keys now = [] then st.owing else st.owing + 1 }
    else none
  | .measure now order =>
    if now ≤ st.clock then
      some { st.remove .sweep (st.store.recalculateUsedMemoryLocked now order) with
        owing := st.owing + 1 }
    else none
  | .limit maxMemory => some { st with store := { st.store with maxMemory } }
  | .publish =>
    if 0 < st.owing then
      some { st with store := st.store.publishExpiredKeys, owing := st.owing - 1 }
    else none

/-- The keys that the sweeps removed. -/
def sweptRemovals (st : Reclaiming) : List Bytes :=
  (st.removals.filter fun r => r.cause = .sweep).map Removal.key

/-- **Removals are right and reported once.** -/
structure Accounted (st : Reclaiming) : Prop where
  /-- only values whose deadline had passed were removed -/
  passed : ∀ r ∈ st.removals, 0 < r.value.expiresAt ∧ r.value.expiresAt < r.clock
  /-- what was handed to the listener or is queued for it is what the sweeps removed -/
  reported : (st.store.published.flatten ++ st.store.pendingExpired).Perm st.sweptRemovals
  /-- someone is still to publish what is queued -/
  owed : st.store.pendingExpired ≠ [] → 0 < st.owing

variable {st : Reclaiming}

/-! ### The log -/

theorem passed_remove (h : ∀ r ∈ st.removals, 0 < r.value.expiresAt ∧ r.value.expiresAt < r.clock)
    {s : Store} {now : Int} (hsheds : Store.Sheds now st.store s) (hnow : now ≤ st.clock)
    (cause : Cause) :
    ∀ r ∈ (st.remove cause s).removals, 0 < r.value.expiresAt ∧ r.value.expiresAt < r.clock := by
  intro r hr
  rcases mem_append.mp hr with hold | hnew
  · exact h r hold
  · obtain ⟨e, he, rfl⟩ := mem_map.mp hnew
    have hexpired := isExpired_iff.mp (hsheds.expired he)
    exact ⟨hexpired.1, by change e.2.expiresAt < st.clock; omega⟩

theorem sweptRemovals_remove (st : Reclaiming) (cause : Cause) (s : Store) :
    (st.remove cause s).sweptRemovals = st.sweptRemovals ++
      if cause = .sweep then (st.store.removedBetween s).map Prod.fst else [] := by
  unfold sweptRemovals remove
  simp only [filter_append, map_append, filter_map, map_map]
  congr 1
  by_cases hcause : cause = .sweep
  · rw [if_pos hcause, filter_eq_self.mpr fun e _ => by simp [hcause]]
    rfl
  · rw [if_neg hcause, filter_eq_nil_iff.mpr fun e _ => by simp [hcause]]
    rfl

theorem perm_remove_other {s : Store} {cause : Cause} (hcause : cause ≠ .sweep)
    (hqueue : Store.SameQueue st.store s) (h : st.store.sweptKeys.Perm st.sweptRemovals) :
    s.sweptKeys.Perm (st.remove cause s).sweptRemovals := by
  rw [sweptRemovals_remove, if_neg hcause, append_nil, hqueue.sweptKeys]
  exact h

theorem perm_remove_sweep {s : Store} {gone : List Bytes}
    (hswept : s.sweptKeys = st.store.sweptKeys ++ gone)
    (hgone : gone.Perm ((st.store.removedBetween s).map Prod.fst))
    (h : st.store.sweptKeys.Perm st.sweptRemovals) :
    s.sweptKeys.Perm (st.remove .sweep s).sweptRemovals := by
  rw [sweptRemovals_remove, if_pos rfl, hswept]
  exact h.append hgone

/-! ### Every step -/

/-- A removal by a reader or a writer. -/
theorem Accounted.removed (h : st.Accounted) {cause : Cause} (hcause : cause ≠ .sweep) {s : Store}
    {now : Int} (hnow : now ≤ st.clock) (hsheds : Store.Sheds now st.store s)
    (hqueue : Store.SameQueue st.store s) : (st.remove cause s).Accounted := by
  refine ⟨passed_remove h.passed hsheds hnow cause, perm_remove_other hcause hqueue h.reported, ?_⟩
  change s.pendingExpired ≠ [] → 0 < st.owing
  rw [hqueue.pending]
  exact h.owed

/-- Anything that leaves the queue alone. -/
theorem Accounted.undisturbed (h : st.Accounted) {s : Store} (hqueue : Store.SameQueue st.store s) :
    Accounted { st with store := s } := by
  refine ⟨h.passed, ?_, ?_⟩
  · rw [hqueue.pending, hqueue.published]
    exact h.reported
  · rw [hqueue.pending]
    exact h.owed

theorem Accounted.answered (h : st.Accounted) {found : Bool} {s : Store} {now : Int}
    (hnow : now ≤ st.clock) (hqueue : Store.SameQueue st.store s)
    (hsheds : found = false → Store.Sheds now st.store s) : (st.answered found s).Accounted := by
  cases found with
  | true => exact h.undisturbed hqueue
  | false => exact h.removed (by decide) hnow (hsheds rfl) hqueue

theorem Accounted.write (h : st.Accounted) {key : Bytes} {env : Env} (accounting : Bool)
    (fn : Store.KeyWrite → Store.WriteAction Datum) (hfirst : env.now 0 ≤ st.clock)
    (hthird : env.now 2 ≤ st.clock) : (st.afterWrite key env accounting fn).Accounted := by
  unfold afterWrite
  set prepared := st.store.prepareExistingValueLocked key (env.now 0) with hprepared
  have hsheds := st.store.sheds_prepare key (env.now 0)
  have hqueue := (Store.SameQueue.deletion st.store).prepare (.refl _) key (env.now 0)
  have hown := passed_remove h.passed hsheds hfirst .writer
  have hreported := @perm_remove_other st prepared.1 .writer (by decide) hqueue h.reported
  have hperform := prepared.1.sameQueue_perform key ⟨prepared.2, env.clock 0, accounting⟩
    (env.after 2) (fn ⟨prepared.2, env.clock 0, accounting⟩)
  by_cases hmeasures : prepared.1.measures key ⟨prepared.2, env.clock 0, accounting⟩
      (fn ⟨prepared.2, env.clock 0, accounting⟩) = true
  · simp only [if_pos hmeasures]
    rw [if_pos hmeasures] at hperform
    refine ⟨?_, ?_, ?_⟩
    · exact passed_remove hown (Store.sheds_recalculate _ _ _) hthird .sweep
    · have hsweep := @perm_remove_sweep (st.remove .writer prepared.1) _ _
        (prepared.1.sweptKeys_recalculate ((env.after 2).now 0) ((env.after 2).order 0))
        (prepared.1.perm_recalculate _ _) hreported
      rw [← hperform.sweptKeys] at hsweep
      exact hsweep
    · -- only an accounted write measures, and it publishes afterwards
      have haccounting : accounting = true := by
        unfold Store.measures at hmeasures
        split at hmeasures
        · simp only [Bool.and_eq_true] at hmeasures
          exact hmeasures.1.1
        · cases hmeasures
      intro _
      rw [if_pos haccounting]
      exact Nat.succ_pos _
  · simp only [if_neg hmeasures]
    rw [if_neg hmeasures] at hperform
    refine ⟨hown, ?_, ?_⟩
    · rw [← hperform.sweptKeys] at hreported
      exact hreported
    · intro hpending
      have hsame := (hqueue.trans hperform).pending
      have howed := h.owed fun hnone => hpending (hsame.trans hnone)
      split
      · exact Nat.succ_pos _
      · exact howed

theorem taken {p : Prop} [Decidable p] {st st' : Reclaiming}
    (h : (if p then some st else none) = some st') : p ∧ st = st' := by
  obtain ⟨hp, hsome⟩ := Option.ite_none_right_eq_some.mp h
  exact ⟨hp, Option.some.inj hsome⟩

/-- **A step keeps the removals right and reported.** -/
theorem Accounted.step (h : st.Accounted) {i : ReclaimStep} {st' : Reclaiming}
    (hstep : st.step i = some st') : st'.Accounted := by
  cases i with
  | tick later =>
    obtain ⟨-, rfl⟩ := taken hstep
    exact ⟨h.passed, h.reported, h.owed⟩
  | find key now =>
    obtain ⟨-, rfl⟩ := taken hstep
    exact h.undisturbed (.touchLive st.store key now)
  | drop key now =>
    obtain ⟨hnow, rfl⟩ := taken hstep
    exact h.removed (by decide) hnow (st.store.sheds_dropIfStillExpired key now)
      (.dropIfStillExpired _ _ _)
  | write key env accounting fn =>
    obtain ⟨hguard, rfl⟩ := taken hstep
    exact h.write accounting fn hguard.1 hguard.2
  | take key m env =>
    simp only [Reclaiming.step] at hstep
    split at hstep
    case h_1 stamp absent fn hplan =>
      obtain ⟨hnow, rfl⟩ := taken hstep
      refine h.answered hnow ?_ fun hfound => ?_
      · refine (Store.SameQueue.deletion _).shrinkKey (.refl _) key env _ _ ?_
        intro value payload result hsound _ _
        simp only
        split <;> exact ⟨rfl, rfl⟩
      · refine Store.sheds_shrinkKey (fun payload hsound => Store.take_ne_none hplan hsound) ?_
        unfold found at hfound
        split at hfound
        · assumption
        · cases hfound
    case h_2 => cases hstep
  | delete key env =>
    obtain ⟨hnow, rfl⟩ := taken hstep
    exact h.answered hnow ((Store.SameQueue.deletion _).delete (.refl _) key env) Store.sheds_delete
  | limit maxMemory =>
    obtain rfl := Option.some.inj hstep
    exact h.undisturbed ⟨rfl, rfl⟩
  | sweep keys now =>
    obtain ⟨⟨hnow, hkeys⟩, rfl⟩ := taken hstep
    refine ⟨passed_remove h.passed (st.store.sheds_sweepExpired keys now) hnow .sweep, ?_, ?_⟩
    · exact perm_remove_sweep (st.store.sweptKeys_sweepExpired keys now)
        (Store.perm_sweepExpired hkeys now) h.reported
    · intro hpending
      by_cases hnone : st.store.expiredKeys keys now = []
      · rw [if_pos hnone]
        refine h.owed fun hempty => hpending ?_
        change (Store.sweepExpired st.store keys now).pendingExpired = []
        rw [Store.sweepExpired, hnone]
        change st.store.pendingExpired ++ [] = []
        rw [hempty]
        rfl
      · rw [if_neg hnone]
        exact Nat.succ_pos _
  | measure now order =>
    obtain ⟨hnow, rfl⟩ := taken hstep
    exact ⟨passed_remove h.passed (st.store.sheds_recalculate now order) hnow .sweep,
      perm_remove_sweep (st.store.sweptKeys_recalculate now order) (st.store.perm_recalculate _ _)
        h.reported, fun _ => Nat.succ_pos _⟩
  | publish =>
    obtain ⟨-, rfl⟩ := taken hstep
    refine ⟨h.passed, ?_, fun hpending => ?_⟩
    · have hswept := st.store.sweptKeys_publish
      unfold Store.sweptKeys at hswept
      rw [hswept]
      exact h.reported
    · exact absurd (Store.pendingExpired_publish st.store) hpending

/-- **Sweeps remove only dead values, and report each exactly once**, in every state that any
interleaving reaches.  When no call is left to publish, everything the sweeps removed was handed to the
listener; what readers and writers removed never is. -/
theorem sweeps_report_once (s : Store) (clock : Int) (steps : List ReclaimStep) :
    Machine.Always step (fun st => st.Accounted ∧
        (st.owing = 0 → st.store.published.flatten.Perm st.sweptRemovals))
      steps (start s clock) := by
  have hstart : (start s clock).Accounted :=
    ⟨fun _ hr => (by cases hr), .refl _, fun hpending => absurd rfl hpending⟩
  have hstarted : Machine.Always step Accounted steps (start s clock) :=
    Machine.always_of_heeds (C := fun _ _ => True) (fun h _ hstep => h.step hstep) hstart
      (Machine.heeds_of_forall (fun _ _ => trivial) _)
  refine hstarted.mono fun st h => ⟨h, fun howing => ?_⟩
  have hnone : st.store.pendingExpired = [] := by
    by_contra hpending
    have := h.owed hpending
    omega
  have hreported := h.reported
  rw [hnone, append_nil] at hreported
  exact hreported

end Reclaiming

end Stash
