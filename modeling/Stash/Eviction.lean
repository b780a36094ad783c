import Stash.MemoryAccount
import Stash.StoredValues
import Stash.RequestRuns

/-!
# Eviction

A write that needs more memory measures the store, is refused if it could not fit even alone, and
otherwise evicts the stalest keys one by one until it fits.

The search for the stalest key returns the empty string when there is none.  The empty string is
also a key: when it is the stalest one the loop stops early, after it has evicted others, and the
write is refused although there was room to be made (`refused_despite_room`).  Without that key a
write is refused only when it must be.

A write that succeeds stays within the limit and reports what it evicted.  Keys that expired are
queued for the listener; the key itself is among them when it expires between the two readings of
the clock, although it then holds its new value.
-/

namespace Stash

open DecimalText GoMap List StoreOp

namespace Store

/-! ## The queue of the expiration listener -/

/-- Nothing is queued and nothing is published on the way from `s` to `s'`. -/
structure SameQueue (s s' : Store) : Prop where
  pending : s'.pendingExpired = s.pendingExpired
  published : s'.published = s.published

namespace SameQueue

variable (s : Store) (key : Bytes)

theorem refl : SameQueue s s :=
  ⟨rfl, rfl⟩

theorem trans {s t u : Store} (h : SameQueue s t) (h' : SameQueue t u) : SameQueue s u :=
  ⟨h'.pending.trans h.pending, h'.published.trans h.published⟩

theorem adjustKeyKindCount (value : Option ValueObject) (delta : Int) :
    SameQueue s (s.adjustKeyKindCount value delta) := by
  cases value with
  | none => exact .refl s
  | some value => exact ⟨rfl, rfl⟩

theorem addUsed (delta : Int) : SameQueue s (s.addUsed delta) :=
  ⟨rfl, rfl⟩

theorem setKeyLocked (value : ValueObject) : SameQueue s (s.setKeyLocked key value) := by
  unfold Store.setKeyLocked
  simp only
  split
  · exact (adjustKeyKindCount s _ _).trans ((adjustKeyKindCount _ _ _).trans ⟨rfl, rfl⟩)
  · exact ⟨rfl, rfl⟩

theorem removeKeyLocked : SameQueue s (s.removeKeyLocked key) :=
  (adjustKeyKindCount s _ _).trans ⟨rfl, rfl⟩

theorem foldl_removeKeyLocked (keys : List Bytes) (s : Store) :
    SameQueue s (keys.foldl Store.removeKeyLocked s) := by
  induction keys generalizing s with
  | nil => exact .refl s
  | cons key keys ih => exact (removeKeyLocked s key).trans (ih _)

/-- Nor by deleting keys. -/
theorem deletion (s : Store) : KeptByDeletion (SameQueue s) := by
  intro t key h
  refine h.trans ?_
  unfold Store.deleteKeyLocked Store.deleteKeyWithSizeLocked
  cases t.lookup key with
  | none => exact .refl t
  | some value =>
    simp only
    split
    · exact (addUsed t _).trans (removeKeyLocked _ key)
    · exact removeKeyLocked t key

end SameQueue

theorem pendingExpired_publish (s : Store) : s.publishExpiredKeys.pendingExpired = [] :=
    by
  unfold publishExpiredKeys
  split
  · assumption
  · rfl

/-- The keys that measuring queues. -/
def expiredNow (s : Store) (now : Int) (order : MapOrder Bytes) : List Bytes :=
  ((s.allEntries order).filter fun e => isExpired e.2.expiresAt now).map Prod.fst

variable {s measured : Store} {protectedKeys : List Bytes} {key : Bytes} {env : Env}
  {targetUsed : Int} {empty : ValueObject} {result : Store × Except StorageError (List Bytes)}

theorem mem_expiredNow {now : Int} {order : MapOrder Bytes} {k : Bytes} :
    k ∈ s.expiredNow now order ↔
      ∃ value, s.lookup k = some value ∧ isExpired value.expiresAt now = true :=
  s.mem_expired now order k

section

variable (s : Store) (now : Int) (order : MapOrder Bytes)

theorem pendingExpired_recalculate :
    (s.recalculateUsedMemoryLocked now order).pendingExpired =
      s.pendingExpired ++ s.expiredNow now order :=
  congrArg (· ++ s.expiredNow now order)
    (SameQueue.foldl_removeKeyLocked (s.expiredNow now order) s).pending

theorem published_recalculate : (s.recalculateUsedMemoryLocked now order).published = s.published :=
  (SameQueue.foldl_removeKeyLocked (s.expiredNow now order) s).published

end

/-! ### Nothing stays queued -/

theorem deletion_pendingExpired : KeptByDeletion fun s => s.pendingExpired = [] :=
  fun s key h => (SameQueue.deletion s s key (.refl s)).pending.trans h

theorem pendingExpired_writeKey {ρ : Type} (h : s.pendingExpired = []) (key : Bytes)
    (env : Env) (fn : KeyWrite → WriteAction ρ) : (s.writeKey key env fn).1.pendingExpired = [] := by
  have hprepared := (SameQueue.deletion s).prepare (.refl s) key (env.now 0)
  rw [writeKey_eq]
  cases s.maxMemoryEnabled with
  | true => exact pendingExpired_publish _
  | false =>
    -- without a limit nothing is measured
    cases fn ⟨liveValue (s.lookup key) (env.now 0), env.clock 0, false⟩ with
    | fail err => exact hprepared.pending.trans h
    | inPlace value result => exact hprepared.pending.trans h
    | commit value result =>
      exact (SameQueue.setKeyLocked _ key value).pending.trans (hprepared.pending.trans h)

theorem pendingExpired_write (h : s.pendingExpired = []) (key : Bytes) (m : Mutation)
    (env : Env) : (s.write key m env).1.pendingExpired = [] := by
  rw [write_eq_carryOut]
  cases m.plan env with
  | refuse err => exact h
  | through fn => exact pendingExpired_writeKey h key env fn
  | take stamp absent fn =>
    refine deletion_pendingExpired.shrinkKey h key env stamp absent fun _ _ _ _ _ _ => ?_
    simp only
    split
    · exact h
    · exact h
  | delete => exact deletion_pendingExpired.delete h key env

/-- **Between operations nothing is queued**: whoever queues expired keys publishes them. -/
theorem Reachable.pendingExpired (hs : s.Reachable) : s.pendingExpired = [] := by
  induction hs with
  | new hash => rfl
  | step op env hs hother ih _ =>
    cases op with
    | write key m => exact pendingExpired_write ih key m env
    | read key q => exact deletion_pendingExpired.read ih key q env fun _ _ => ih
    | pfCount keys => exact deletion_pendingExpired.pfMerge ih _ env fun _ h _ => h
    | deleteMany keys => exact deletion_pendingExpired.deleteMany ih keys env
    | snapshotAll | snapshotStrings | len | keyStats => exact ih
    | configureMaxMemory limit sampleSize => exact pendingExpired_publish _
    | enforceMaxMemory =>
      simp only [run, enforceMaxMemory, Prod.map]
      split
      · exact pendingExpired_publish _
      · exact ih
    | evictExpired sampleSize => exact pendingExpired_publish _
    | replaceWith other => exact pendingExpired_publish _

/-! ## The search for the stalest key

The search starts with the empty string for no candidate, so the empty key ends it as if there were
none, once no other key was used before it. -/

/-- The stamps of the keys that may be evicted are below the one the search starts with. -/
def Searchable (s : Store) (protectedKeys : List Bytes) : Prop :=
  ∀ key value, key ∉ protectedKeys → s.lookup key = some value →
    value.lastAccessedAt < 2 ^ 63 - 1

theorem Searchable.deleteKey (h : s.Searchable protectedKeys)
    (key : Bytes) : (s.deleteKeyLocked key).Searchable protectedKeys := by
  intro k value hk hvalue
  rw [lookup_deleteKey] at hvalue
  split at hvalue
  · cases hvalue
  · exact h k value hk hvalue

/-- What a scan of some keys makes of the stalest so far. -/
structure Scanned (s : Store) (protectedKeys keys : List Bytes) (stalest found : Bytes × Int) :
    Prop where
  /-- it is replaced by a key that may be evicted and is staler only -/
  origin : found = stalest ∨ found.2 < stalest.2 ∧ found.1 ∉ protectedKeys ∧
    ∃ value, s.lookup found.1 = some value ∧ value.lastAccessedAt = found.2
  least : ∀ key ∈ keys, ∀ value, key ∉ protectedKeys → s.lookup key = some value →
    found.2 ≤ value.lastAccessedAt

theorem Scanned.le {keys : List Bytes} {stalest found : Bytes × Int}
    (h : Scanned s protectedKeys keys stalest found) : found.2 ≤ stalest.2 := by
  rcases h.origin with rfl | ⟨hlt, -⟩
  · exact le_rfl
  · exact hlt.le

theorem scanned_one (s : Store) (protectedKeys : List Bytes) (stalest : Bytes × Int) (key : Bytes) :
    Scanned s protectedKeys [key] stalest (s.stalerCandidate protectedKeys stalest key) := by
  unfold stalerCandidate
  by_cases hfree : key ∈ protectedKeys
  · rw [if_pos hfree]
    refine ⟨.inl rfl, fun k hk value hk' _ => ?_⟩
    exact absurd (mem_singleton.mp hk ▸ hfree) hk'
  · rw [if_neg hfree]
    cases hlookup : s.lookup key with
    | none =>
      refine ⟨.inl rfl, fun k hk value _ hvalue => ?_⟩
      rw [mem_singleton.mp hk, hlookup] at hvalue
      cases hvalue
    | some v =>
      have hsame : ∀ k ∈ [key], ∀ value, s.lookup k = some value → value = v := by
        intro k hk value hvalue
        rw [mem_singleton.mp hk, hlookup] at hvalue
        exact (Option.some.inj hvalue).symm
      simp only
      split
      · rename_i hlt
        exact ⟨.inr ⟨hlt, hfree, v, hlookup, rfl⟩, fun k hk value _ hvalue =>
          (congrArg ValueObject.lastAccessedAt (hsame k hk value hvalue)).ge⟩
      · rename_i hle
        exact ⟨.inl rfl, fun k hk value _ hvalue => hsame k hk value hvalue ▸ not_lt.mp hle⟩

theorem Scanned.trans {keys later : List Bytes} {stalest found last : Bytes × Int}
    (h : Scanned s protectedKeys keys stalest found) (h' : Scanned s protectedKeys later found last) :
    Scanned s protectedKeys (keys ++ later) stalest last where
  origin := by
    rcases h'.origin with rfl | ⟨hlt, hkey⟩
    · exact h.origin
    · exact .inr ⟨hlt.trans_le h.le, hkey⟩
  least key hkey value hfree hvalue := by
    rcases mem_append.mp hkey with hkey | hkey
    · exact h'.le.trans (h.least key hkey value hfree hvalue)
    · exact h'.least key hkey value hfree hvalue

/-- **A scan ends with the stalest key.** -/
theorem scanned_foldl (s : Store) (protectedKeys keys : List Bytes) (stalest : Bytes × Int) :
    Scanned s protectedKeys keys stalest (keys.foldl (s.stalerCandidate protectedKeys) stalest) := by
  induction keys generalizing stalest with
  | nil => exact ⟨.inl rfl, fun _ h => absurd h not_mem_nil⟩
  | cons key keys ih => exact (scanned_one s protectedKeys stalest key).trans (ih _)

/-- **The search fails only when every key that may be evicted was used no earlier than the empty
one**: it falls back to a scan of all keys. -/
theorem empty_stalest_of_findStalest {env : Env} (hs : s.Searchable protectedKeys)
    (h : s.findStalestCandidateLocked protectedKeys env = []) {key : Bytes} {value : ValueObject}
    (hfree : key ∉ protectedKeys) (hvalue : s.lookup key = some value) :
    [] ∉ protectedKeys ∧ ∃ empty, s.lookup [] = some empty ∧
      empty.lastAccessedAt ≤ value.lastAccessedAt := by
  unfold findStalestCandidateLocked at h
  simp only at h
  have hsampled := scanned_foldl s protectedKeys (s.sampleKeysLocked (env.clock 0) (env.order 0))
    ([], 2 ^ 63 - 1)
  split at h
  · rename_i hfound
    exact absurd h hfound
  · have hscan := scanned_foldl s protectedKeys ((s.allEntries (env.order 1)).map Prod.fst)
      ((s.sampleKeysLocked (env.clock 0) (env.order 0)).foldl (s.stalerCandidate protectedKeys)
        ([], 2 ^ 63 - 1))
    have hwhole := hsampled.trans hscan
    have hmem : key ∈ (s.allEntries (env.order 1)).map Prod.fst :=
      mem_map.mpr ⟨(key, value), mem_allEntries.mpr hvalue, rfl⟩
    have hleast := hscan.least key hmem value hfree hvalue
    rcases hwhole.origin with hnone | ⟨-, hkey, empty, hempty, hstamp⟩
    · rw [hnone] at hleast
      exact absurd hleast (not_le.mpr (hs key value hfree hvalue))
    · rw [h] at hkey hempty
      exact ⟨hkey, empty, hempty, hstamp.trans_le hleast⟩

/-! ## The loop -/

theorem totalKeyCount_eq (s : Store) (order : MapOrder Bytes) :
    s.totalKeyCountLocked = ((s.allEntries order).map Prod.fst).length := by
  unfold totalKeyCountLocked allEntries
  rw [length_map, length_flatMap]
  refine congrArg List.sum (map_congr_left fun i _ => ?_)
  rw [← length_map (f := Prod.fst), iterate_fst]
  exact (order.perm _).length_eq.symm

theorem totalKeyCount_deleteKey (h : (s.lookup key).isSome) :
    (s.deleteKeyLocked key).totalKeyCountLocked + 1 = s.totalKeyCountLocked := by
  have hothers : ∀ k, k ≠ key → (s.deleteKeyLocked key).lookup k = s.lookup k := by
    intro k hk
    rw [lookup_deleteKey, if_neg hk]
  have hgone : (s.deleteKeyLocked key).lookup key = none := by
    rw [lookup_deleteKey, if_pos rfl]
  obtain ⟨value, hvalue⟩ := Option.isSome_iff_exists.mp h
  have hbefore := (@allEntries_perm s s key (fun _ _ => rfl) (.id _) (.id _)).length_eq
  have hafter := (allEntries_perm hothers (.id _) (.id _)).length_eq
  rw [entryOf, hvalue, length_append] at hbefore
  rw [entryOf, hgone, length_append] at hafter
  rw [totalKeyCount_eq _ (.id _), totalKeyCount_eq s (.id _), length_map, length_map,
    hbefore, hafter]
  simp only [Option.toList_none, Option.toList_some, map_nil, map_cons, length_nil, length_cons]
  omega

theorem lookup_of_totalKeyCount (h : s.totalKeyCountLocked = 0) (key : Bytes) :
    s.lookup key = none := by
  rw [Option.eq_none_iff_forall_ne_some]
  intro value hvalue
  rw [totalKeyCount_eq s (MapOrder.id Bytes), length_map, length_eq_zero_iff] at h
  have hmem := (@mem_allEntries s (MapOrder.id Bytes) key value).mpr hvalue
  rw [h] at hmem
  cases hmem

/-- **The loop ends with room, or at the empty key.** -/
theorem evictLoop_exhausts {rounds : Nat} {t : Store} (hs : s.Searchable protectedKeys) (hrounds : s.totalKeyCountLocked ≤ rounds)
    (env : Env) (evicted : List Bytes)
    (ht : (evictLoop protectedKeys targetUsed rounds s env evicted).1 = t) :
    t.usedMemory ≤ targetUsed ∨ ∀ key value, key ∉ protectedKeys → t.lookup key = some value →
      [] ∉ protectedKeys ∧ ∃ empty, t.lookup [] = some empty ∧
        empty.lastAccessedAt ≤ value.lastAccessedAt := by
  induction rounds generalizing s env evicted with
  | zero =>
    refine .inr fun key value _ hvalue => ?_
    have hnone := lookup_of_totalKeyCount (Nat.le_zero.mp hrounds) key
    rw [← ht, evictLoop, hnone] at hvalue
    cases hvalue
  | succ rounds ih =>
    unfold evictLoop at ht
    simp only at ht
    split at ht
    · rename_i hroom
      exact .inl (ht ▸ hroom)
    · split at ht
      · rename_i hcandidate
        subst ht
        exact .inr fun key value hfree hvalue =>
          empty_stalest_of_findStalest hs hcandidate hfree hvalue
      · rename_i hcandidate
        have hevictable := s.evictable_findStalestCandidateLocked protectedKeys env hcandidate
        set candidate := s.findStalestCandidateLocked protectedKeys env
        have hcount := totalKeyCount_deleteKey hevictable.2
        obtain ⟨value, hvalue⟩ := Option.isSome_iff_exists.mp hevictable.2
        rw [hvalue] at ht
        exact ih (hs.deleteKey candidate) (by omega) (env.after 2) _ ht

/-- The size of the stored entries that are selected. -/
def memoryOf (s : Store) (select : Bytes → ValueObject → Bool) : Int :=
  sizeSum ((s.allEntries (MapOrder.id Bytes)).filter fun e => select e.1 e.2)

theorem memoryOf_le {s t : Store} {select select' : Bytes → ValueObject → Bool}
    (h : ∀ key value, s.lookup key = some value → select key value = true →
      t.lookup key = some value ∧ select' key value = true) :
    s.memoryOf select ≤ t.memoryOf select' := by
  have hsame : s.memoryOf select = sizeSum (((t.allEntries (MapOrder.id Bytes)).filter
      fun e => select' e.1 e.2).filter fun e => (s.lookup e.1).any (select e.1)) := by
    rw [memoryOf, filter_filter]
    refine sizeSum_filter_congr fun key value => ?_
    simp only [Bool.and_eq_true, Option.any_eq_true]
    constructor
    · rintro ⟨hvalue, hselect⟩
      obtain ⟨hvalue', hselect'⟩ := h key value hvalue hselect
      exact ⟨hvalue', ⟨value, hvalue, hselect⟩, hselect'⟩
    · rintro ⟨hvalue', ⟨own, hvalue, hselect⟩, -⟩
      have hown := (h key own hvalue hselect).1
      rw [hvalue'] at hown
      obtain rfl := Option.some.inj hown
      exact ⟨hvalue, hselect⟩
  rw [hsame]
  unfold memoryOf sizeSum
  refine (filter_sublist.map _).sum_le_sum fun size hsize => ?_
  obtain ⟨e, -, rfl⟩ := mem_map.mp hsize
  exact (approximateValueObjectSize_pos e.1 e.2).le

theorem storedMemory_eq_memoryOf (s : Store) : s.storedMemory = s.memoryOf fun _ _ => true := by
  rw [memoryOf, filter_true]
  rfl

/-- The protected keys and those that were not used before the empty one. -/
def keptBeside (protectedKeys : List Bytes) (empty : ValueObject) (key : Bytes) (value : ValueObject) :
    Bool :=
  key ∈ protectedKeys || empty.lastAccessedAt ≤ value.lastAccessedAt

/-- The protected keys fit, but evicting the keys that were used before the empty one is not
enough. -/
def Starved (s : Store) (protectedKeys : List Bytes) (targetUsed : Int) : Prop :=
  [] ∉ protectedKeys ∧ s.memoryOf (fun key _ => key ∈ protectedKeys) ≤ targetUsed ∧
    ∃ empty, s.lookup [] = some empty ∧ targetUsed < s.memoryOf (keptBeside protectedKeys empty)

theorem Starved.lt_used (h : s.Starved protectedKeys targetUsed)
    (hexact : s.Exact) : targetUsed < s.usedMemory := by
  obtain ⟨-, -, empty, -, hlarge⟩ := h
  rw [show s.usedMemory = _ from hexact, storedMemory_eq_memoryOf]
  exact hlarge.trans_le (memoryOf_le fun _ _ hvalue _ => ⟨hvalue, rfl⟩)

/-- **Eviction succeeds when the protected keys fit** and the empty key is not in the way. -/
theorem evictUntil_ok
    (hs : s.Searchable protectedKeys) (hexact : s.Exact) (henabled : s.maxMemoryEnabled = true)
    (hfits : s.memoryOf (fun key _ => key ∈ protectedKeys) ≤ targetUsed)
    (hfed : ¬s.Starved protectedKeys targetUsed) (env : Env) :
    ∃ evicted, (s.evictUntilMemoryAtOrBelowLocked targetUsed protectedKeys env).2 = .ok evicted := by
  have hexhausts := @evictLoop_exhausts s protectedKeys targetUsed _ _ hs le_rfl env [] rfl
  obtain ⟨keys, -, hevictions⟩ :=
    evictLoop_evictions protectedKeys targetUsed s.totalKeyCountLocked s env []
  have hexact' := (counting_deletion.evictions hevictions ⟨henabled, hexact⟩).exact
  unfold evictUntilMemoryAtOrBelowLocked
  simp only
  generalize evictLoop protectedKeys targetUsed s.totalKeyCountLocked s env [] = result at *
  have hbefore : ∀ {key value}, result.1.lookup key = some value → s.lookup key = some value := by
    intro key value hvalue
    rw [← hevictions.kept fun hevicted => ?_]
    · exact hvalue
    · rw [(hevictions.gone hevicted).2] at hvalue
      cases hvalue
  have hroom : result.1.usedMemory ≤ targetUsed := by
    rcases hexhausts with hroom | hleft
    · exact hroom
    · -- what is left was protected, or used no earlier than the empty key
      rw [show result.1.usedMemory = _ from hexact', storedMemory_eq_memoryOf]
      by_cases hempty : ∃ empty, [] ∉ protectedKeys ∧ result.1.lookup [] = some empty
      · obtain ⟨empty, hfree, hempty⟩ := hempty
        have hle : result.1.memoryOf (fun _ _ => true) ≤ s.memoryOf (keptBeside protectedKeys empty) := by
          refine memoryOf_le fun key value hvalue _ => ⟨hbefore hvalue, ?_⟩
          rw [keptBeside, Bool.or_eq_true, decide_eq_true_eq, decide_eq_true_eq]
          by_cases hkey : key ∈ protectedKeys
          · exact .inl hkey
          · obtain ⟨-, empty', hempty', hstamp⟩ := hleft key value hkey hvalue
            rw [hempty] at hempty'
            exact .inr (Option.some.inj hempty' ▸ hstamp)
        exact hle.trans (not_lt.mp fun hlt => hfed ⟨hfree, hfits, empty, hbefore hempty, hlt⟩)
      · refine le_trans (memoryOf_le fun key value hvalue _ => ⟨hbefore hvalue, ?_⟩) hfits
        by_contra hkey
        obtain ⟨hfree, empty, hempty', -⟩ := hleft key value (fun h => hkey (decide_eq_true h)) hvalue
        exact hempty ⟨empty, hfree, hempty'⟩
  rw [if_pos hroom]
  exact ⟨_, rfl⟩

/-! ## Samples that meet the empty key first -/

/-- The order that starts with the empty key. -/
def emptyFirst : MapOrder Bytes where
  arrange keys := if [] ∈ keys then [] :: keys.erase [] else keys
  perm keys := by
    split
    · exact (perm_cons_erase ‹_›).symm
    · exact .refl _

/-- How many shards there are, and where the empty key belongs. -/
def emptyShard (s : Store) : Nat × Nat :=
  (s.shardCount, s.shardIndex [])

theorem emptyShard_removeKey (s : Store) (key : Bytes) : (s.removeKeyLocked key).emptyShard = s.emptyShard := by
  unfold removeKeyLocked adjustKeyKindCount
  cases s.lookup key <;> rfl

theorem keptByDeletion_emptyShard (place : Nat × Nat) : KeptByDeletion fun s => s.emptyShard = place := by
  intro s key h
  unfold deleteKeyLocked deleteKeyWithSizeLocked
  cases s.lookup key with
  | none => exact h
  | some value =>
    simp only
    split
    · exact (emptyShard_removeKey _ key).trans h
    · exact (emptyShard_removeKey _ key).trans h

theorem emptyShard_recalculate (s : Store) (now : Int) (order : MapOrder Bytes) :
    (s.recalculateUsedMemoryLocked now order).emptyShard = s.emptyShard := by
  have hfoldl : ∀ (keys : List Bytes) (t : Store), (keys.foldl removeKeyLocked t).emptyShard = t.emptyShard := by
    intro keys
    induction keys with
    | nil => exact fun t => rfl
    | cons key keys ih => exact fun t => (ih _).trans (emptyShard_removeKey t key)
  exact hfoldl (s.expiredNow now order) s

/-- Every sample starts at the shard of the empty key, and with it. -/
def MeetsEmptyFirst (env : Env) (place : Nat × Nat) : Prop :=
  ∀ i, (env.clock i).nanos % place.1 = place.2 ∧ env.order i = emptyFirst

theorem iterate_emptyFirst {m : Map Bytes ValueObject} (h : m.lookup [] = some empty) : ∃ rest, GoMap.iterate emptyFirst m = ([], empty) :: rest := by
  have hmem : [] ∈ m.keys := AList.mem_keys.mpr (AList.lookup_isSome.mp (by rw [h]; rfl))
  refine ⟨(m.keys.erase []).filterMap fun key => (m.lookup key).map fun value => (key, value), ?_⟩
  unfold GoMap.iterate emptyFirst
  simp only [if_pos hmem]
  rw [filterMap_cons_some (by rw [h]; rfl)]

theorem sample_emptyFirst {now : Instant} (hnow : now.nanos % s.shardCount = s.shardIndex [])
    (hempty : s.lookup [] = some empty) : ∃ rest, s.sampleKeysLocked now emptyFirst = [] :: rest := by
  have hrotate : ∃ rest, (List.finRange s.shardCount).rotate (now.nanos % s.shardCount) =
      s.shardIndex [] :: rest := by
    have hlength : (s.shardIndex [] : Nat) < (List.finRange s.shardCount).length := by
      rw [length_finRange]
      exact (s.shardIndex []).2
    rw [hnow, rotate_eq_drop_append_take hlength.le, drop_eq_getElem_cons hlength, getElem_finRange]
    exact ⟨_, rfl⟩
  obtain ⟨shards, hshards⟩ := hrotate
  obtain ⟨entries, hentries⟩ := iterate_emptyFirst hempty
  unfold sampleKeysLocked
  rw [hshards, flatMap_cons, hentries, map_cons, cons_append, take_cons s.sampled]
  exact ⟨_, rfl⟩

/-- Then only a key that was used before the empty one is found. -/
theorem findStalest_emptyFirst (hs : s.Searchable protectedKeys) (hfree : [] ∉ protectedKeys)
    (henv : MeetsEmptyFirst env s.emptyShard) (hempty : s.lookup [] = some empty)
    (hfound : s.findStalestCandidateLocked protectedKeys env ≠ []) :
    ∃ value, s.lookup (s.findStalestCandidateLocked protectedKeys env) = some value ∧
      s.findStalestCandidateLocked protectedKeys env ∉ protectedKeys ∧
      value.lastAccessedAt < empty.lastAccessedAt := by
  obtain ⟨rest, hsample⟩ := sample_emptyFirst (henv 0).1 hempty
  have hfirst : s.stalerCandidate protectedKeys ([], 2 ^ 63 - 1) [] = ([], empty.lastAccessedAt) := by
    unfold stalerCandidate
    rw [if_neg hfree, hempty]
    exact if_pos (hs [] empty hfree hempty)
  have hsampled := scanned_foldl s protectedKeys rest ([], empty.lastAccessedAt)
  unfold findStalestCandidateLocked at hfound ⊢
  simp only [(henv 0).2, hsample, foldl_cons, hfirst] at hfound ⊢
  split at hfound
  · rename_i hne
    rw [if_pos hne]
    rcases hsampled.origin with hsame | ⟨hlt, hkey, value, hvalue, hstamp⟩
    · rw [hsame] at hne
      exact absurd rfl hne
    · exact ⟨value, hvalue, hkey, hstamp ▸ hlt⟩
  · rename_i hne
    rw [if_neg hne]
    rcases (hsampled.trans (scanned_foldl s protectedKeys ((s.allEntries (env.order 1)).map Prod.fst)
      _)).origin with hsame | ⟨hlt, hkey, value, hvalue, hstamp⟩
    · rw [hsame] at hfound
      exact absurd rfl hfound
    · exact ⟨value, hvalue, hkey, hstamp ▸ hlt⟩

/-- The loop keeps the protected keys and those that were not used before the empty one. -/
theorem evictLoop_emptyFirst {rounds : Nat} (hs : s.Searchable protectedKeys)
    (hfree : [] ∉ protectedKeys) (hempty : s.lookup [] = some empty)
    (henv : MeetsEmptyFirst env s.emptyShard) (evicted : List Bytes) {key : Bytes} {value : ValueObject}
    (hvalue : s.lookup key = some value) (hkept : keptBeside protectedKeys empty key value = true) :
    (evictLoop protectedKeys targetUsed rounds s env evicted).1.lookup key = some value := by
  induction rounds generalizing s env evicted with
  | zero => exact hvalue
  | succ rounds ih =>
    unfold evictLoop
    simp only
    split
    · exact hvalue
    · split
      · exact hvalue
      · rename_i hcandidate
        obtain ⟨old, hold, hunprotected, hstaler⟩ :=
          findStalest_emptyFirst hs hfree henv hempty hcandidate
        set candidate := s.findStalestCandidateLocked protectedKeys env
        rw [hold]
        rw [keptBeside, Bool.or_eq_true, decide_eq_true_eq, decide_eq_true_eq] at hkept
        have hother : key ≠ candidate := by
          rintro rfl
          rw [hold] at hvalue
          obtain rfl := Option.some.inj hvalue
          exact hkept.elim hunprotected (not_le.mpr hstaler)
        refine ih (hs.deleteKey candidate) ?_ (fun i => ?_) _ ?_
        · rw [lookup_deleteKey, if_neg (Ne.symm hcandidate)]
          exact hempty
        · rw [keptByDeletion_emptyShard s.emptyShard s candidate rfl]
          exact henv (2 + i)
        · rw [lookup_deleteKey, if_neg hother]
          exact hvalue

/-- **A starved store cannot make room when its samples meet the empty key first.** -/
theorem evictUntil_starved (hs : s.Searchable protectedKeys) (hexact : s.Exact)
    (henabled : s.maxMemoryEnabled = true) (hstarved : s.Starved protectedKeys targetUsed)
    (henv : MeetsEmptyFirst env s.emptyShard) :
    (s.evictUntilMemoryAtOrBelowLocked targetUsed protectedKeys env).2 =
      .error .memoryLimitExceeded := by
  obtain ⟨hfree, -, empty, hempty, hlarge⟩ := hstarved
  obtain ⟨keys, -, hevictions⟩ :=
    evictLoop_evictions protectedKeys targetUsed s.totalKeyCountLocked s env []
  have hexact' := (counting_deletion.evictions hevictions ⟨henabled, hexact⟩).exact
  have hleft : s.memoryOf (keptBeside protectedKeys empty) ≤
      (evictLoop protectedKeys targetUsed s.totalKeyCountLocked s env []).1.memoryOf fun _ _ => true :=
    memoryOf_le fun key value hvalue hkept =>
      ⟨evictLoop_emptyFirst hs hfree hempty henv [] hvalue hkept, rfl⟩
  rw [← storedMemory_eq_memoryOf, ← show _ = _ from hexact'] at hleft
  unfold evictUntilMemoryAtOrBelowLocked
  simp only
  rw [if_neg (not_le.mpr (hlarge.trans_le hleft))]

/-! ## Making room -/

/-- How room is made in a measured store. -/
inductive MakesRoom (measured : Store) (targetUsed : Int) (protectedKeys : List Bytes) (env : Env) :
    Store × Except StorageError (List Bytes) → Prop where
  /-- the write could not fit -/
  | refused (h : targetUsed < 0 ∨
      targetUsed < measured.usedMemory - measured.totalEvictableMemoryLocked protectedKeys) :
    MakesRoom measured targetUsed protectedKeys env (measured, .error .memoryLimitExceeded)
  /-- it fits already -/
  | roomy (h : measured.usedMemory ≤ targetUsed) :
    MakesRoom measured targetUsed protectedKeys env (measured, .ok [])
  /-- keys are evicted -/
  | evicts (h : measured.usedMemory - measured.totalEvictableMemoryLocked protectedKeys ≤ targetUsed) :
    MakesRoom measured targetUsed protectedKeys env
      (measured.evictUntilMemoryAtOrBelowLocked targetUsed protectedKeys env)

theorem ensureMemory_makesRoom (henabled : s.maxMemoryEnabled = true)
    {delta : Int} (hdelta : 0 < delta) (protectedKeys : List Bytes) (env : Env) :
    MakesRoom (s.recalculateUsedMemoryLocked (env.now 0) (env.order 0)) (s.maxMemory - delta)
      protectedKeys (env.after 1) (s.ensureMemoryAvailableLocked delta protectedKeys env) := by
  unfold ensureMemoryAvailableLocked
  rw [henabled, if_neg (by simpa using hdelta)]
  simp only
  split
  · rename_i hnegative
    exact .refused (.inl hnegative)
  · split
    · rename_i hroomy
      exact .roomy hroomy
    · split
      · rename_i hlarge
        exact .refused (.inr hlarge)
      · rename_i hfits
        exact .evicts (not_lt.mp hfits)

theorem MakesRoom.ok
    (h : MakesRoom measured targetUsed protectedKeys env result) {evicted : List Bytes}
    (hok : result.2 = .ok evicted) :
    result.1.usedMemory ≤ targetUsed ∧ Evictions protectedKeys measured evicted result.1 := by
  cases h with
  | refused => cases hok
  | roomy hroomy =>
    cases hok
    exact ⟨hroomy, .done measured⟩
  | evicts =>
    obtain ⟨keys, hkeys, hevictions⟩ := evictLoop_evictions protectedKeys targetUsed
      measured.totalKeyCountLocked measured env []
    unfold evictUntilMemoryAtOrBelowLocked at hok ⊢
    simp only at hok ⊢
    split at hok
    · rename_i hroom
      cases hok
      rw [if_pos hroom, hkeys]
      exact ⟨hroom, hevictions⟩
    · cases hok

theorem memoryOf_protected (hexact : s.Exact) (protectedKeys : List Bytes) :
    s.usedMemory - s.totalEvictableMemoryLocked protectedKeys =
      s.memoryOf fun key _ => key ∈ protectedKeys := by
  have hsplit := s.storedMemory_split protectedKeys
  unfold Exact at hexact
  rw [hexact, hsplit]
  exact add_sub_cancel_right _ _

/-- A refusal of a searchable store: it was not touched, and the write could not fit. -/
theorem MakesRoom.error
    (h : MakesRoom measured targetUsed protectedKeys env result)
    (hs : measured.Searchable protectedKeys) (hexact : measured.Exact)
    (henabled : measured.maxMemoryEnabled = true) (hfed : ¬measured.Starved protectedKeys targetUsed)
    {err : StorageError} (herr : result.2 = .error err) :
    result.1 = measured ∧ (targetUsed < 0 ∨
      targetUsed < measured.memoryOf fun key _ => key ∈ protectedKeys) := by
  have hprotected := memoryOf_protected hexact protectedKeys
  cases h with
  | refused hrefused => exact ⟨rfl, hprotected ▸ hrefused⟩
  | roomy => cases herr
  | evicts hfits =>
    rw [hprotected] at hfits
    obtain ⟨evicted, hok⟩ := evictUntil_ok hs hexact henabled hfits hfed env
    rw [hok] at herr
    cases herr

/-- A starved store refuses when its samples meet the empty key first. -/
theorem MakesRoom.starved
    (h : MakesRoom measured targetUsed protectedKeys env result)
    (hs : measured.Searchable protectedKeys) (hexact : measured.Exact)
    (henabled : measured.maxMemoryEnabled = true) (hstarved : measured.Starved protectedKeys targetUsed)
    (henv : MeetsEmptyFirst env measured.emptyShard) : result.2 = .error .memoryLimitExceeded := by
  cases h with
  | refused => rfl
  | roomy hroomy => exact absurd hroomy (not_le.mpr (hstarved.lt_used hexact))
  | evicts => exact evictUntil_starved hs hexact henabled hstarved henv

/-! ## Writes that need room -/

theorem liveValue_liveValue (value : Option ValueObject) {now later : Int} (h : now ≤ later) :
    liveValue (liveValue value now) later = liveValue value later := by
  cases value with
  | none => rfl
  | some v =>
    rw [liveValue_some v now]
    split
    · rename_i hexpired
      rw [liveValue_some, if_pos (isExpired_mono h hexpired)]
      rfl
    · rfl

/-- The bytes a write needs: the size of the new value less that of the value it replaces. -/
def growth (s : Store) (key : Bytes) (value : ValueObject) (now : Int) : Int :=
  approximateValueObjectSize key value - sizeOfCurrent key (liveValue (s.lookup key) now)

/-- The store a write makes room in. -/
def measuredFor (s : Store) (key : Bytes) (env : Env) : Store :=
  (s.prepareExistingValueLocked key (env.now 0)).1.recalculateUsedMemoryLocked (env.now 2) (env.order 2)

/-- **Measuring for a write** leaves what is live. -/
theorem lookup_measuredFor (s : Store) (key : Bytes) (env : Env) (k : Bytes) :
    (s.measuredFor key env).lookup k = liveValue (s.lookup k) (env.now 2) := by
  unfold measuredFor
  rw [lookup_recalculate, lookup_prepare]
  by_cases hk : k = key
  · rw [if_pos hk, hk, liveValue_liveValue _ (env.now_mono (Nat.zero_le 2))]
  · rw [if_neg hk]

theorem maxMemory_measuredFor (s : Store) (key : Bytes) (env : Env) :
    (s.measuredFor key env).maxMemory = s.maxMemory := by
  unfold measuredFor
  rw [maxMemory_recalculate, maxMemory_prepare]

section Writes

variable {ρ : Type} {s : Store} {key : Bytes} {env : Env} {fn : KeyWrite → WriteAction ρ}
  {value : ValueObject} {result : ρ}

theorem commit_error {write : KeyWrite} (haccounting : write.accounting = true) {t : Store}
    {err : StorageError}
    (h : s.ensureMemoryAvailableLocked
      (approximateValueObjectSize key value - sizeOfCurrent key write.current) [key] env =
        (t, .error err)) : s.commit key write value env = (t, .error err) := by
  unfold commit
  rw [if_pos haccounting]
  simp only [h]

theorem commit_ok {write : KeyWrite} (haccounting : write.accounting = true) {t : Store}
    {evicted : List Bytes}
    (h : s.ensureMemoryAvailableLocked
      (approximateValueObjectSize key value - sizeOfCurrent key write.current) [key] env =
        (t, .ok evicted)) :
    s.commit key write value env =
      ((t.setKeyLocked key value).addUsed
        (approximateValueObjectSize key value - sizeOfCurrent key write.current), .ok evicted) := by
  unfold commit
  rw [if_pos haccounting]
  simp only [h]

theorem writeKey_grows (henabled : s.maxMemoryEnabled = true)
    (hfn : fn ⟨liveValue (s.lookup key) (env.now 0), env.clock 0, true⟩ = .commit value result)
    (hgrows : 0 < s.growth key value (env.now 0)) :
    ∃ room, MakesRoom (s.measuredFor key env) (s.maxMemory - s.growth key value (env.now 0)) [key]
        ((env.after 2).after 1) room ∧
      (∀ err, room.2 = .error err →
        s.writeKey key env fn = (room.1.publishExpiredKeys, .error err)) ∧
      ∀ evicted, room.2 = .ok evicted →
        s.writeKey key env fn =
          (((room.1.setKeyLocked key value).addUsed (s.growth key value (env.now 0))).publishExpiredKeys,
            .ok (result, evicted)) := by
  have hlimit := s.maxMemory_prepare key (env.now 0)
  have henabled' := (enabled_of_eq hlimit).trans henabled
  have hroom := ensureMemory_makesRoom henabled' hgrows [key] (env.after 2)
  rw [hlimit] at hroom
  have hwrite : s.writeKey key env fn =
      (((s.prepareExistingValueLocked key (env.now 0)).1.perform key
          ⟨liveValue (s.lookup key) (env.now 0), env.clock 0, true⟩ (env.after 2)
          (.commit value result)).1.publishExpiredKeys,
        ((s.prepareExistingValueLocked key (env.now 0)).1.perform key
          ⟨liveValue (s.lookup key) (env.now 0), env.clock 0, true⟩ (env.after 2)
          (.commit value result)).2) := by
    rw [writeKey_eq, henabled, hfn]
    rfl
  refine ⟨_, hroom, fun err herr => ?_, fun evicted hok => ?_⟩
  · have hcommit := @commit_error _ key _ value
      ⟨liveValue (s.lookup key) (env.now 0), env.clock 0, true⟩ rfl _ err (Prod.ext rfl herr)
    rw [hwrite]
    unfold perform
    simp only [hcommit]
    rfl
  · have hcommit := @commit_ok _ key _ value
      ⟨liveValue (s.lookup key) (env.now 0), env.clock 0, true⟩ rfl _ evicted (Prod.ext rfl hok)
    rw [hwrite]
    unfold perform
    simp only [hcommit]
    rfl

end Writes

/-! ## Refusals -/

/-- A store that came about by operations is searchable. -/
theorem Reachable.searchable (hs : s.Reachable) {now : Int}
    (hmeasured : ∀ k, measured.lookup k = liveValue (s.lookup k) now) (protectedKeys : List Bytes) :
    measured.Searchable protectedKeys := by
  intro key value _ hvalue
  rw [hmeasured] at hvalue
  obtain ⟨t, ht⟩ := hs.stamped key value (Option.filter_eq_some_iff.mp hvalue).1
  have hle := t.millis_le
  omega

/-- The size of the live entries that are selected. -/
def liveMemory (s : Store) (now : Int) (select : Bytes → ValueObject → Bool) : Int :=
  s.memoryOf fun key value => !isExpired value.expiresAt now && select key value

theorem memoryOf_measured {now : Int}
    (hmeasured : ∀ k, measured.lookup k = liveValue (s.lookup k) now)
    (select : Bytes → ValueObject → Bool) : measured.memoryOf select = s.liveMemory now select := by
  refine sizeSum_filter_congr fun key value => ?_
  rw [hmeasured, liveValue, Option.filter_eq_some_iff]
  simp only [Bool.and_eq_true, and_assoc]

/-- **The empty key is in the way**: it is live and not protected, the protected keys alone would fit,
but they and the live keys that were not used before the empty one do not. -/
def EmptyInTheWay (s : Store) (protectedKeys : List Bytes) (targetUsed now : Int) : Prop :=
  [] ∉ protectedKeys ∧ s.liveMemory now (fun key _ => key ∈ protectedKeys) ≤ targetUsed ∧
    ∃ empty, liveValue (s.lookup []) now = some empty ∧
      targetUsed < s.liveMemory now (keptBeside protectedKeys empty)

theorem starved_measured {now : Int}
    (hmeasured : ∀ k, measured.lookup k = liveValue (s.lookup k) now) (protectedKeys : List Bytes)
    (targetUsed : Int) :
    measured.Starved protectedKeys targetUsed ↔ s.EmptyInTheWay protectedKeys targetUsed now := by
  unfold Starved EmptyInTheWay
  simp only [memoryOf_measured hmeasured, hmeasured]

/-- A refusal that had to be: the value of the key alone, all other live keys evicted, leaves too
little room, and every live key is still there. -/
structure RefusedRightly (s s' : Store) (key : Bytes) (delta now : Int) : Prop where
  needed : s.maxMemory - delta < sizeOfCurrent key (liveValue (s.lookup key) now)
  kept : ∀ k value, liveValue (s.lookup k) now = some value → s'.lookup k = some value

theorem sizeOfCurrent_nonneg (key : Bytes) (value : Option ValueObject) :
    0 ≤ sizeOfCurrent key value := by
  cases value with
  | none => exact le_rfl
  | some value => exact (approximateValueObjectSize_pos key value).le

theorem memoryOf_key (s : Store) (key : Bytes) :
    s.memoryOf (fun k _ => k ∈ [key]) = sizeOfCurrent key (s.lookup key) := by
  have hsplit := s.storedMemory_split [key]
  have hown := s.storedMemory_eq key
  change sizeSum ((s.allEntries (MapOrder.id Bytes)).filter fun e => decide (e.1 ∈ [key])) = _
  omega

section Refusals

variable {ρ : Type} {s : Store} (hs : s.Reachable) (henabled : s.maxMemoryEnabled = true) {key : Bytes}
  {env : Env} {fn : KeyWrite → WriteAction ρ} {value : ValueObject} {result : ρ}
  (hfn : fn ⟨liveValue (s.lookup key) (env.now 0), env.clock 0, true⟩ = .commit value result)
  (hgrows : 0 < s.growth key value (env.now 0))
include hs henabled hfn hgrows

theorem Reachable.refused
    (hfed : ¬s.EmptyInTheWay [key] (s.maxMemory - s.growth key value (env.now 0)) (env.now 2))
    {err : StorageError} (herr : (s.writeKey key env fn).2 = .error err) :
    s.RefusedRightly (s.writeKey key env fn).1 key (s.growth key value (env.now 0)) (env.now 2) := by
  obtain ⟨room, hroom, hrefused, hgranted⟩ := writeKey_grows henabled hfn hgrows
  have hlookup := s.lookup_measuredFor key env
  have hexact : (s.measuredFor key env).Exact := exact_recalculate _ _ _
  have henabled' := (enabled_of_eq (s.maxMemory_measuredFor key env)).trans henabled
  rcases hresult : room.2 with err' | evicted
  · obtain ⟨hsame, hlarge⟩ := hroom.error (hs.searchable hlookup [key]) hexact henabled'
      (mt (starved_measured hlookup _ _).mp hfed) hresult
    rw [hrefused err' hresult]
    refine ⟨?_, fun k v hv => ?_⟩
    · have hnonneg := sizeOfCurrent_nonneg key (liveValue (s.lookup key) (env.now 2))
      rw [memoryOf_key, hlookup key] at hlarge
      omega
    · rw [lookup_publish, hsame, hlookup, hv]
  · rw [hgranted evicted hresult] at herr
    cases herr

/-- **With the empty key in the way a write is refused wrongly**, if the samples meet it first. -/
theorem Reachable.refused_wrongly
    (hstarved : s.EmptyInTheWay [key] (s.maxMemory - s.growth key value (env.now 0)) (env.now 2))
    (henv : MeetsEmptyFirst ((env.after 2).after 1) s.emptyShard) :
    (s.writeKey key env fn).2 = .error .memoryLimitExceeded ∧
      ¬s.RefusedRightly (s.writeKey key env fn).1 key (s.growth key value (env.now 0)) (env.now 2) := by
  obtain ⟨room, hroom, hrefused, -⟩ := writeKey_grows henabled hfn hgrows
  have hlookup := s.lookup_measuredFor key env
  have hplace : (s.measuredFor key env).emptyShard = s.emptyShard := by
    rw [measuredFor, emptyShard_recalculate]
    exact (keptByDeletion_emptyShard s.emptyShard).prepare rfl key (env.now 0)
  have hroomless := hroom.starved (hs.searchable hlookup [key]) (exact_recalculate _ _ _)
    ((enabled_of_eq (s.maxMemory_measuredFor key env)).trans henabled)
    ((starved_measured hlookup _ _).mpr hstarved) (hplace ▸ henv)
  refine ⟨by rw [hrefused _ hroomless], fun hrightly => ?_⟩
  have hneeded := hrightly.needed
  have hfits := hstarved.2.1
  rw [← memoryOf_measured hlookup, memoryOf_key, hlookup key] at hfits
  omega

end Refusals

/-- Enforcing a limit is making room for nothing. -/
theorem enforce_makesRoom (henabled : s.maxMemoryEnabled = true) (env : Env) :
    ∃ room, MakesRoom (s.recalculateUsedMemoryLocked (env.now 0) (env.order 0)) s.maxMemory []
        (env.after 1) room ∧ (s.enforceMaxMemory env).2 = room.2 := by
  have hfits : (s.recalculateUsedMemoryLocked (env.now 0) (env.order 0)).usedMemory -
      (s.recalculateUsedMemoryLocked (env.now 0) (env.order 0)).totalEvictableMemoryLocked [] ≤
      s.maxMemory := by
    have hpositive : 0 < s.maxMemory := of_decide_eq_true henabled
    rw [memoryOf_protected (s.exact_recalculate _ _), memoryOf,
      filter_eq_nil_iff.mpr fun e _ h => absurd (of_decide_eq_true h) not_mem_nil]
    exact hpositive.le
  unfold enforceMaxMemory
  rw [if_pos henabled]
  simp only
  split
  · rename_i hroomy
    exact ⟨_, .roomy hroomy, rfl⟩
  · exact ⟨_, .evicts hfits, rfl⟩

theorem Reachable.enforced (hs : s.Reachable) (henabled : s.maxMemoryEnabled = true)
    (hfed : ¬s.EmptyInTheWay [] s.maxMemory (env.now 0)) :
    ∃ evicted, (s.enforceMaxMemory env).2 = .ok evicted := by
  obtain ⟨room, hroom, hresult⟩ := enforce_makesRoom henabled env
  have hlookup := s.lookup_recalculate (env.now 0) (env.order 0)
  rw [hresult]
  rcases herr : room.2 with err | evicted
  · obtain ⟨-, hlarge⟩ := hroom.error (hs.searchable hlookup []) (s.exact_recalculate _ _)
      ((enabled_of_eq (s.maxMemory_recalculate _ _)).trans henabled)
      (mt (starved_measured hlookup _ _).mp hfed) herr
    have hpositive : 0 < s.maxMemory := of_decide_eq_true henabled
    rw [memoryOf, filter_eq_nil_iff.mpr fun e _ h => absurd (of_decide_eq_true h) not_mem_nil] at hlarge
    change s.maxMemory < 0 ∨ s.maxMemory < 0 at hlarge
    omega
  · exact ⟨evicted, rfl⟩

theorem Reachable.enforced_wrongly (hs : s.Reachable) (henabled : s.maxMemoryEnabled = true)
    (hstarved : s.EmptyInTheWay [] s.maxMemory (env.now 0))
    (henv : MeetsEmptyFirst (env.after 1) s.emptyShard) :
    (s.enforceMaxMemory env).2 = .error .memoryLimitExceeded := by
  obtain ⟨room, hroom, hresult⟩ := enforce_makesRoom henabled env
  have hlookup := s.lookup_recalculate (env.now 0) (env.order 0)
  rw [hresult]
  exact hroom.starved (hs.searchable hlookup []) (s.exact_recalculate _ _)
    ((enabled_of_eq (s.maxMemory_recalculate _ _)).trans henabled)
    ((starved_measured hlookup _ _).mpr hstarved) (s.emptyShard_recalculate _ _ ▸ henv)

end Store

/-! ### The sampling outcomes -/

namespace Env

/-- The same readings of the clock, up to the `n`-th. -/
def SameUntil (n : Nat) (env env' : Env) : Prop :=
  ∀ i ≤ n, env'.clock i = env.clock i

variable (env : Env) (n : Nat) (s : Store)
  (hend : (env.clock n).nanos + 2 * s.shardCount < 2 ^ 63)

/-- A later moment, whose samples start at the shard of the empty key. -/
def emptyMoment : Instant where
  nanos := (env.clock n).nanos / s.shardCount * s.shardCount + s.shardCount + s.shardIndex []
  bounded := by
    have hle := Nat.div_mul_le_self (env.clock n).nanos s.shardCount
    have hlt := (s.shardIndex []).2
    omega

/-- After the `n`-th reading, all samples meet the empty key first. -/
def turnToEmpty : Env where
  clock i := if i ≤ n then env.clock i else env.emptyMoment n s hend
  monotone := by
    intro i j hij
    by_cases hj : j ≤ n
    · simp only [if_pos hj, if_pos (hij.trans hj)]
      exact env.monotone hij
    · simp only [if_neg hj]
      split
      · rename_i hi
        refine (env.monotone hi).trans ?_
        change (env.clock n).nanos ≤ (env.clock n).nanos / s.shardCount * s.shardCount +
          s.shardCount + s.shardIndex []
        have hlt := Nat.lt_div_mul_add (Fin.pos (s.shardIndex [])) (a := (env.clock n).nanos)
        omega
      · exact le_refl _
  order i := if i ≤ n then env.order i else Store.emptyFirst

theorem sameUntil_turnToEmpty : SameUntil n env (env.turnToEmpty n s hend) :=
  fun _ hi => if_pos hi

theorem meets_turnToEmpty {i : Nat} (hi : n < i) :
    ((env.turnToEmpty n s hend).clock i).nanos % s.emptyShard.1 = s.emptyShard.2 ∧
      (env.turnToEmpty n s hend).order i = Store.emptyFirst := by
  refine ⟨?_, if_neg (not_le.mpr hi)⟩
  simp only [turnToEmpty, if_neg (not_le.mpr hi), emptyMoment, Store.emptyShard]
  rw [Nat.add_mod, ← Nat.succ_mul, Nat.mul_mod_left, Nat.zero_add, Nat.mod_mod]
  exact Nat.mod_eq_of_lt (s.shardIndex []).2

end Env

/-- **A write is refused only when it must be, and then changes nothing, whatever is sampled: exactly
if the empty key is not in the way.**  The same goes for enforcing the limit, which then always
succeeds. -/
theorem refused_only_when_needed {s : Store} (hs : s.Reachable)
    (henabled : s.maxMemoryEnabled = true) :
    (∀ (ρ : Type) (key : Bytes) (env : Env) (fn : Store.KeyWrite → Store.WriteAction ρ)
        (value : ValueObject) (result : ρ),
      fn ⟨Store.liveValue (s.lookup key) (env.now 0), env.clock 0, true⟩ = .commit value result →
      0 < s.growth key value (env.now 0) → (env.clock 2).nanos + 2 * s.shardCount < 2 ^ 63 →
      ((∀ env', env.SameUntil 2 env' →
          (s.writeKey key env' fn).2 = .error .memoryLimitExceeded →
          s.RefusedRightly (s.writeKey key env' fn).1 key (s.growth key value (env.now 0))
            (env.now 2)) ↔
        ¬s.EmptyInTheWay [key] (s.maxMemory - s.growth key value (env.now 0)) (env.now 2))) ∧
    ∀ env : Env, (env.clock 0).nanos + 2 * s.shardCount < 2 ^ 63 →
      ((∀ env', env.SameUntil 0 env' → ∃ evicted, (s.enforceMaxMemory env').2 = .ok evicted) ↔
        ¬s.EmptyInTheWay [] s.maxMemory (env.now 0)) := by
  refine ⟨fun ρ key env fn value result hfn hgrows hend => ⟨fun hproperty hstarved => ?_,
    fun hfed env' hsame herr => ?_⟩, fun env hend => ⟨fun hproperty hstarved => ?_,
    fun hfed env' hsame => ?_⟩⟩
  · -- the samples turn to the empty key once the memory is measured
    obtain ⟨hrefused, hwrongly⟩ := @Store.Reachable.refused_wrongly ρ s hs henabled key
      (env.turnToEmpty 2 s hend) fn value result hfn hgrows hstarved
      fun i => env.meets_turnToEmpty 2 s hend (by omega)
    exact hwrongly (hproperty _ (env.sameUntil_turnToEmpty 2 s hend) hrefused)
  · have hfirst : env'.now 0 = env.now 0 := congrArg Instant.millis (hsame 0 (by omega))
    have hthird : env'.now 2 = env.now 2 := congrArg Instant.millis (hsame 2 le_rfl)
    rw [← hfirst, ← hsame 0 (by omega)] at hfn
    rw [← hfirst] at hgrows
    rw [← hfirst, ← hthird] at hfed ⊢
    exact hs.refused henabled hfn hgrows hfed herr
  · obtain ⟨evicted, hok⟩ := hproperty _ (env.sameUntil_turnToEmpty 0 s hend)
    have hrefused := @Store.Reachable.enforced_wrongly s (env.turnToEmpty 0 s hend) hs henabled
      hstarved fun i => env.meets_turnToEmpty 0 s hend (by omega)
    rw [hok] at hrefused
    cases hrefused
  · have hfirst : env'.now 0 = env.now 0 := congrArg Instant.millis (hsame 0 le_rfl)
    rw [← hfirst] at hfed
    exact hs.enforced henabled hfed

/-- A limit of 150 bytes, of which a key of 50 bytes is in use. -/
def smallStore : Store :=
  (run (.write (ascii "a") (.set (ascii "x") 0))
    (run (.configureMaxMemory 150 20) (.newStore fun _ => 0) (.frozen (momentAt 0))).1
    (.frozen (momentAt 1))).1

theorem reachable_smallStore : smallStore.Reachable :=
  .step _ _ (.step _ _ (.new _) (fun _ h => by cases h)) (fun _ h => by cases h)

/-- The same with the empty key, of 49 bytes, in it. -/
def crowdedStore : Store :=
  (run (.write [] (.set (ascii "y") 0)) smallStore (.frozen (momentAt 2))).1

theorem reachable_crowdedStore : crowdedStore.Reachable :=
  .step _ _ reachable_smallStore (fun _ h => by cases h)

/-- The empty key is not in the way of a value that is larger than the limit, nor of the limit. -/
theorem refused_only_when_needed_large :
    (Store.liveValue (crowdedStore.lookup []) 3).isSome ∧
      crowdedStore.RefusedRightly
        (crowdedStore.writeKey (ascii "b") (.frozen (momentAt 3))
          (Store.setAction (List.replicate 200 120) 0 3)).1 (ascii "b")
        (crowdedStore.growth (ascii "b") (.ofString (List.replicate 200 120) 0 3) 3) 3 ∧
      ∃ evicted, (crowdedStore.enforceMaxMemory (.frozen (momentAt 3))).2 = .ok evicted := by
  have hwrite : ¬crowdedStore.EmptyInTheWay [ascii "b"] (crowdedStore.maxMemory -
      crowdedStore.growth (ascii "b") (.ofString (List.replicate 200 120) 0 3) 3) 3 :=
    fun h => absurd h.2.1 (by decide +kernel)
  have hlimit : ¬crowdedStore.EmptyInTheWay [] crowdedStore.maxMemory 3 := by
    rintro ⟨-, -, empty, hempty, hlarge⟩
    refine absurd hlarge (not_lt.mpr (le_trans ?_ (show crowdedStore.storedMemory ≤ _ from
      by decide +kernel)))
    rw [Store.storedMemory_eq_memoryOf]
    exact Store.memoryOf_le fun _ _ hvalue _ => ⟨hvalue, rfl⟩
  have hneeded := refused_only_when_needed reachable_crowdedStore (by decide +kernel)
  refine ⟨by decide +kernel, ?_, ?_⟩
  · exact (hneeded.1 Unit (ascii "b") (.frozen (momentAt 3))
      (Store.setAction (List.replicate 200 120) 0 3) _ () rfl (by decide +kernel)
      (by decide +kernel)).mpr hwrite _ (fun _ _ => rfl) (by decide +kernel)
  · exact (hneeded.2 (.frozen (momentAt 3)) (by decide +kernel)).mpr hlimit _ fun _ _ => rfl

/-- **A write is refused despite room**: 109 bytes would fit after both keys were evicted.  The loop
evicts `a`, then meets the empty key, takes it for no candidate and gives up.  For the same reason a
limit of 40 bytes cannot be enforced. -/
theorem refused_despite_room :
    crowdedStore.Reachable ∧
      (crowdedStore.writeKey (ascii "b") (.frozen (momentAt 3))
        (Store.setAction (List.replicate 60 120) 0 3)).2 = .error .memoryLimitExceeded ∧
      crowdedStore.growth (ascii "b") (.ofString (List.replicate 60 120) 0 3) 3 = 109 ∧
      Store.sizeOfCurrent (ascii "b") (Store.liveValue (crowdedStore.lookup (ascii "b")) 3) ≤
        crowdedStore.maxMemory - 109 ∧
      (Store.liveValue (crowdedStore.lookup (ascii "a")) 3).isSome ∧
      ((crowdedStore.writeKey (ascii "b") (.frozen (momentAt 3))
        (Store.setAction (List.replicate 60 120) 0 3)).1.lookup (ascii "a")).isNone ∧
      ((crowdedStore.configureMaxMemory 40 20 (.frozen (momentAt 3))).enforceMaxMemory
        (.frozen (momentAt 4))).2 = .error .memoryLimitExceeded := by
  refine ⟨reachable_crowdedStore, ?_⟩
  decide +kernel

/-! ## Reports -/

namespace Store

/-- What a write that succeeded promises: the limit is kept, the value is stored, and the keys that
vanished are those evicted and those past their deadline, which are the ones queued for the
listener. -/
structure Reported (s s' : Store) (key : Bytes) (value : ValueObject) (evicted : List Bytes)
    (now : Int) : Prop where
  bounded : s'.usedMemory ≤ s'.maxMemory
  stored : s'.lookup key = some value
  nodup : evicted.Nodup
  spared : key ∉ evicted
  vanished : ∃ queued, s'.published = s.published ++ (if queued = [] then [] else [queued]) ∧
    (∀ k, k ∈ queued ↔ s'.lookup k = none ∧
      ∃ v, s.lookup k = some v ∧ isExpired v.expiresAt now = true) ∧
    ∀ k, ((s.lookup k).isSome ∧ s'.lookup k = none) ↔ k ∈ evicted ∨ k ∈ queued

theorem published_publish (s : Store) :
    s.publishExpiredKeys.published =
      s.published ++ (if s.pendingExpired = [] then [] else [s.pendingExpired]) := by
  unfold publishExpiredKeys
  split
  · exact (append_nil _).symm
  · rfl

/-- What measuring for a write queues: the key itself counts with the value it had at first. -/
theorem mem_expired_prepared {s : Store} {key : Bytes} {env : Env} {order : MapOrder Bytes}
    {k : Bytes} :
    k ∈ (s.prepareExistingValueLocked key (env.now 0)).1.expiredNow (env.now 2) order ↔
      (∃ v, s.lookup k = some v ∧ isExpired v.expiresAt (env.now 2) = true) ∧
        (k = key → ¬s.Steady key env) := by
  rw [mem_expiredNow, lookup_prepare]
  by_cases hk : k = key
  · subst hk
    rw [if_pos rfl]
    constructor
    · rintro ⟨v, hv, hexpired⟩
      obtain ⟨hlookup, hlive⟩ := Option.filter_eq_some_iff.mp hv
      refine ⟨⟨v, hlookup, hexpired⟩, fun _ hsteady => ?_⟩
      rw [hsteady v hlookup hexpired] at hlive
      cases hlive
    · rintro ⟨⟨v, hlookup, hexpired⟩, hunsteady⟩
      refine ⟨v, Option.filter_eq_some_iff.mpr ⟨hlookup, ?_⟩, hexpired⟩
      rw [Bool.not_eq_true', ← Bool.not_eq_true]
      intro hfirst
      refine hunsteady rfl fun v' hv' _ => ?_
      rw [hlookup] at hv'
      cases hv'
      exact hfirst
  · rw [if_neg hk]
    exact ⟨fun h => ⟨h, fun heq => absurd heq hk⟩, fun h => h.1⟩

section Reports

variable {ρ : Type} {s : Store} {key : Bytes} {env : Env} {fn : KeyWrite → WriteAction ρ}
  {value : ValueObject} {result : ρ} {evicted : List Bytes}

/-- A write that grew and succeeded. -/
structure Grew (s s' : Store) (key : Bytes) (value : ValueObject) (evicted : List Bytes) (env : Env) :
    Prop where
  bounded : s'.usedMemory ≤ s'.maxMemory
  stored : s'.lookup key = some value
  evictions : ∃ t, Evictions [key] (s.measuredFor key env) evicted t ∧
    ∀ k, k ≠ key → s'.lookup k = t.lookup k
  published : s'.published = s.published ++
    (if (s.prepareExistingValueLocked key (env.now 0)).1.expiredNow (env.now 2) (env.order 2) = []
      then []
      else [(s.prepareExistingValueLocked key (env.now 0)).1.expiredNow (env.now 2) (env.order 2)])

theorem writeKey_grew (hpending : s.pendingExpired = []) (henabled : s.maxMemoryEnabled = true)
    (hfn : fn ⟨liveValue (s.lookup key) (env.now 0), env.clock 0, true⟩ = .commit value result)
    (hgrows : 0 < s.growth key value (env.now 0))
    (hok : (s.writeKey key env fn).2 = .ok (result, evicted)) :
    Grew s (s.writeKey key env fn).1 key value evicted env := by
  obtain ⟨room, hroom, hrefused, hgranted⟩ := writeKey_grows henabled hfn hgrows
  rcases hresult : room.2 with err | evicted'
  · rw [hrefused err hresult] at hok
    cases hok
  · have hwrite := hgranted evicted' hresult
    rw [hwrite] at hok
    obtain ⟨-, rfl⟩ := Prod.mk.inj (Except.ok.inj hok)
    rw [hwrite]
    obtain ⟨hused, hevictions⟩ := hroom.ok hresult
    have hqueue := ((SameQueue.deletion _).evictions hevictions (.refl _)).trans
      ((SameQueue.setKeyLocked room.1 key value).trans
        (SameQueue.addUsed _ (s.growth key value (env.now 0))))
    refine ⟨?_, ?_, ⟨room.1, hevictions, fun k hk => ?_⟩, ?_⟩
    · rw [usedMemory_publish, usedMemory_addUsed, usedMemory_setKey,
        maxMemory_publish, maxMemory_addUsed, maxMemory_setKey,
        hevictions.shrinks.limit, maxMemory_measuredFor]
      omega
    · rw [lookup_publish, lookup_addUsed, lookup_setKey, if_pos rfl]
    · rw [lookup_publish, lookup_addUsed, lookup_setKey, if_neg hk]
    · -- nothing was queued before, so what is published is what measuring found
      have hprepared := (SameQueue.deletion s).prepare (.refl s) key (env.now 0)
      rw [published_publish, hqueue.published, hqueue.pending]
      unfold measuredFor
      rw [published_recalculate, pendingExpired_recalculate, hprepared.published, hprepared.pending,
        hpending, nil_append]

variable {s' : Store}

/-- A write that grew vanished no key but its own report. -/
theorem Grew.lookup_eq_none (h : Grew s s' key value evicted env) {k : Bytes} (hk : k ≠ key) :
    s'.lookup k = none ↔ k ∈ evicted ∨ liveValue (s.lookup k) (env.now 2) = none := by
  obtain ⟨t, hevictions, hothers⟩ := h.evictions
  rw [hothers k hk]
  by_cases hevicted : k ∈ evicted
  · exact ⟨fun _ => .inl hevicted, fun _ => (hevictions.gone hevicted).2⟩
  · rw [hevictions.kept hevicted, lookup_measuredFor]
    exact ⟨.inr, fun h => h.resolve_left hevicted⟩

theorem Grew.evicted_live (h : Grew s s' key value evicted env) {k : Bytes}
    (hk : k ∈ evicted) : k ≠ key ∧ (liveValue (s.lookup k) (env.now 2)).isSome := by
  obtain ⟨t, hevictions, -⟩ := h.evictions
  obtain ⟨⟨hfree, hstored⟩, -⟩ := hevictions.gone hk
  rw [lookup_measuredFor] at hstored
  exact ⟨fun heq => hfree (mem_singleton.mpr heq), hstored⟩

theorem liveValue_eq_none_iff {v : ValueObject} {now : Int} :
    liveValue (some v) now = none ↔ isExpired v.expiresAt now = true := by
  simp [liveValue_some]

theorem Grew.reported (h : Grew s s' key value evicted env) (hsteady : s.Steady key env) :
    s.Reported s' key value evicted (env.now 2) := by
  obtain ⟨t, hevictions, -⟩ := h.evictions
  refine ⟨h.bounded, h.stored, hevictions.nodup, fun hkey => (h.evicted_live hkey).1 rfl, _, h.published,
    fun k => ?_, fun k => ?_⟩
  · rw [mem_expired_prepared]
    constructor
    · rintro ⟨⟨v, hv, hexpired⟩, hkey⟩
      have hk : k ≠ key := fun heq => hkey heq hsteady
      refine ⟨(h.lookup_eq_none hk).mpr (.inr ?_), v, hv, hexpired⟩
      rw [hv, liveValue_eq_none_iff]
      exact hexpired
    · rintro ⟨hnone, hpast⟩
      refine ⟨hpast, ?_⟩
      rintro rfl
      rw [h.stored] at hnone
      cases hnone
  · rw [mem_expired_prepared]
    constructor
    · rintro ⟨hstored, hnone⟩
      have hk : k ≠ key := by
        rintro rfl
        rw [h.stored] at hnone
        cases hnone
      refine ((h.lookup_eq_none hk).mp hnone).imp_right fun hdead => ?_
      obtain ⟨v, hv⟩ := Option.isSome_iff_exists.mp hstored
      rw [hv, liveValue_eq_none_iff] at hdead
      exact ⟨⟨v, hv, hdead⟩, fun heq => absurd heq hk⟩
    · rintro (hevicted | ⟨⟨v, hv, hexpired⟩, hkey⟩)
      · obtain ⟨hk, hlive⟩ := h.evicted_live hevicted
        obtain ⟨v, hv⟩ := Option.isSome_iff_exists.mp hlive
        refine ⟨?_, (h.lookup_eq_none hk).mpr (.inl hevicted)⟩
        rw [(Option.filter_eq_some_iff.mp hv).1]
        rfl
      · have hk : k ≠ key := fun heq => hkey heq hsteady
        refine ⟨by rw [hv]; rfl, (h.lookup_eq_none hk).mpr (.inr ?_)⟩
        rw [hv, liveValue_eq_none_iff]
        exact hexpired

/-- A key that expires between the readings is queued although it is stored. -/
theorem Grew.steady (h : Grew s s' key value evicted env)
    (hreported : s.Reported s' key value evicted (env.now 2)) : s.Steady key env := by
  intro v hv hexpired
  by_contra hfirst
  have hmem : key ∈ (s.prepareExistingValueLocked key (env.now 0)).1.expiredNow (env.now 2)
      (env.order 2) := by
    refine mem_expired_prepared.mpr ⟨⟨v, hv, hexpired⟩, fun _ hsteady => ?_⟩
    exact hfirst (hsteady v hv hexpired)
  obtain ⟨queued, hpublished, hqueued, -⟩ := hreported.vanished
  have hne := ne_nil_of_mem hmem
  rw [h.published, if_neg hne] at hpublished
  have hsame := append_cancel_left hpublished
  have hkey : key ∈ queued := by
    by_cases hnil : queued = []
    · rw [if_pos hnil] at hsame
      cases hsame
    · rw [if_neg hnil] at hsame
      obtain rfl := singleton_inj.mp hsame
      exact hmem
  have hnone := ((hqueued key).mp hkey).1
  rw [hreported.stored] at hnone
  cases hnone

end Reports

end Store

/-- The frames the executor logs for a write that succeeded. -/
theorem Executor.durability_runCommand (x : Executor) (ctx : Context) (env : Env) (c : CommandName)
    (request : Request) (w : World) {key : Bytes} {m : Mutation} {evicted : List Bytes}
    (heffect : c.effect x.rt request.args (env.clock 1) = .write key m)
    (hok : (w.store.mutate key m (env.after 2)).2 = .ok evicted) :
    ∃ result, (x.runCommand ctx env c request w).2 = .ok result ∧
      result.durability =
        commandFrameOf c request m.deadline :: if evicted = [] then [] else [deleteFrame evicted] := by
  obtain ⟨handler, reply, hhandler, hreply, hframes⟩ :=
    StoreRun.storeHandler_wrote heffect hok ctx.inline
  unfold runCommand
  simp only [hhandler, hreply]
  exact ⟨_, rfl, hframes request⟩

/-- **A write that grows and succeeds is bounded and fully reported**, exactly if its key does not
expire between the readings of the clock.  The executor logs the command and one DEL of the evicted
keys. -/
theorem eviction_reported_iff {s : Store} (hs : s.Reachable)
    (henabled : s.maxMemoryEnabled = true) :
    (∀ (ρ : Type) (key : Bytes) (env : Env) (fn : Store.KeyWrite → Store.WriteAction ρ)
        (value : ValueObject) (result : ρ) (evicted : List Bytes),
      fn ⟨Store.liveValue (s.lookup key) (env.now 0), env.clock 0, true⟩ = .commit value result →
      0 < s.growth key value (env.now 0) →
      (s.writeKey key env fn).2 = .ok (result, evicted) →
      (s.Reported (s.writeKey key env fn).1 key value evicted (env.now 2) ↔ s.Steady key env)) ∧
    ∀ (x : Executor) (ctx : Context) (env : Env) (c : CommandName) (request : Request) (w : World)
        (key : Bytes) (m : Mutation) (evicted : List Bytes), w.store = s →
      c.effect x.rt request.args (env.clock 1) = .write key m →
      (s.mutate key m (env.after 2)).2 = .ok evicted →
      ∃ result, (x.runCommand ctx env c request w).2 = .ok result ∧
        result.durability = Executor.commandFrameOf c request m.deadline ::
          if evicted = [] then [] else [deleteFrame evicted] := by
  refine ⟨fun ρ key env fn value result evicted hfn hgrows hok => ?_, ?_⟩
  · have hgrew := Store.writeKey_grew hs.pendingExpired henabled hfn hgrows hok
    exact ⟨hgrew.steady, hgrew.reported⟩
  · rintro x ctx env c request w key m evicted rfl heffect hok
    exact x.durability_runCommand ctx env c request w heffect hok

/-- A write of 109 bytes evicts the key that is in use. -/
theorem eviction_reported_small :
    smallStore.Reported
      (smallStore.writeKey (ascii "b") (.frozen (momentAt 3))
        (Store.setAction (List.replicate 60 120) 0 3)).1 (ascii "b")
      (.ofString (List.replicate 60 120) 0 3) [ascii "a"] 3 :=
  ((eviction_reported_iff reachable_smallStore (by decide +kernel)).1 Unit (ascii "b")
    (.frozen (momentAt 3)) (Store.setAction (List.replicate 60 120) 0 3) _ () [ascii "a"] rfl
    (by decide +kernel) (by decide +kernel)).mpr fun _ _ hexpired => hexpired

/-- A key with a deadline of 1000. -/
def fadingStore : Store :=
  (run (.write (ascii "a") (.set (ascii "x") 1000))
    (run (.configureMaxMemory 1000 20) (.newStore fun _ => 0) (.frozen (momentAt 0))).1
    (.frozen (momentAt 500))).1

/-- **A stored key is queued for the listener**: it is overwritten by a larger value, and the old one
expires after the first reading of that write. -/
theorem stored_key_queued :
    fadingStore.Reachable ∧ fadingStore.maxMemoryEnabled = true ∧
      (fadingStore.writeKey (ascii "a") (tickingEnv (momentAt 1000) (momentAt 1001) (by decide))
        (Store.setAction (ascii "a longer value") 0 1000)).2 = .ok ((), []) ∧
      0 < fadingStore.growth (ascii "a") (.ofString (ascii "a longer value") 0 1000) 1000 ∧
      (fadingStore.writeKey (ascii "a") (tickingEnv (momentAt 1000) (momentAt 1001) (by decide))
        (Store.setAction (ascii "a longer value") 0 1000)).1.published = [[ascii "a"]] ∧
      ((fadingStore.writeKey (ascii "a") (tickingEnv (momentAt 1000) (momentAt 1001) (by decide))
        (Store.setAction (ascii "a longer value") 0 1000)).1.lookup (ascii "a")).isSome ∧
      ¬fadingStore.Reported
        (fadingStore.writeKey (ascii "a") (tickingEnv (momentAt 1000) (momentAt 1001) (by decide))
          (Store.setAction (ascii "a longer value") 0 1000)).1 (ascii "a")
        (.ofString (ascii "a longer value") 0 1000) [] 1001 := by
  have hreachable : fadingStore.Reachable :=
    .step _ _ (.step _ _ (.new _) (fun _ h => by cases h)) (fun _ h => by cases h)
  refine ⟨hreachable, by decide +kernel, by decide +kernel, by decide +kernel, by decide +kernel,
    by decide +kernel, fun hreported => ?_⟩
  -- the queue holds a key that did not vanish
  obtain ⟨queued, hqueue, hqueued, -⟩ := hreported.vanished
  have hpublished : [[ascii "a"]] = fadingStore.published ++ _ := Eq.trans (by decide +kernel) hqueue
  rw [show fadingStore.published = [] by decide +kernel, nil_append] at hpublished
  have hmem : ascii "a" ∈ queued := by
    split at hpublished
    · cases hpublished
    · exact singleton_inj.mp hpublished ▸ mem_singleton_self _
  exact absurd (congrArg Option.isSome ((hqueued _).mp hmem).1) (by decide +kernel)

end Stash
