import Stash.StoreOps

/-!
# What the operations are made of

An operation of the store that gives no key a new value deletes keys, and perhaps changes one value
where it lies.  So a property of stores that deleting a key keeps is kept by all of them, if it is
kept by that change.
-/

namespace Stash

open List

namespace Store

theorem deleteKey_of_none {s : Store} {key : Bytes} (h : s.lookup key = none) :
    s.deleteKeyLocked key = s := by
  rw [deleteKeyLocked, h]

variable (now : Int) (keys : List Bytes) (s : Store)

/-- One round of `DeleteMany`. -/
theorem deleteLoop_cons (key : Bytes) (keys removed : List Bytes) :
    deleteLoop now s (key :: keys) removed = deleteLoop now (s.deleteKeyLocked key) keys
      (if (liveValue (s.lookup key) now).isSome then removed ++ [key] else removed) := by
  rw [deleteLoop]
  cases hlookup : s.lookup key with
  | none => rw [deleteKey_of_none hlookup]; rfl
  | some value =>
    rw [liveValue, Option.filter_some]
    simp only
    cases isExpired value.expiresAt now <;> rfl

theorem deleteLoop_fst (keys removed : List Bytes) :
    (deleteLoop now s keys removed).1 = keys.foldl deleteKeyLocked s := by
  induction keys generalizing s removed with
  | nil => rfl
  | cons key keys ih => rw [deleteLoop_cons, ih, foldl_cons]

theorem lookup_foldl_deleteKey (k : Bytes) :
    (keys.foldl deleteKeyLocked s).lookup k = if k ∈ keys then none else s.lookup k := by
  induction keys generalizing s with
  | nil => rfl
  | cons key keys ih =>
    rw [foldl_cons, ih, lookup_deleteKey]
    by_cases hk : k = key <;> simp [hk]

/-- What `DeleteMany` has removed: the keys that were live, each once. -/
theorem deleteLoop_removed (removed : List Bytes) :
    ∃ more, (deleteLoop now s keys removed).2 = removed ++ more ∧ more.Nodup ∧
      ∀ k, k ∈ more ↔ k ∈ keys ∧ (liveValue (s.lookup k) now).isSome := by
  induction keys generalizing s removed with
  | nil => exact ⟨[], (append_nil _).symm, nodup_nil, by simp⟩
  | cons key keys ih =>
    -- the key is gone in the rest of the loop
    have hgone : ∀ k, (liveValue ((s.deleteKeyLocked key).lookup k) now).isSome ↔
        k ≠ key ∧ (liveValue (s.lookup k) now).isSome := by
      intro k
      rw [lookup_deleteKey]
      by_cases hk : k = key
      · simp [hk, liveValue]
      · simp [hk]
    rw [deleteLoop_cons]
    by_cases hlive : (liveValue (s.lookup key) now).isSome = true
    · rw [if_pos hlive]
      obtain ⟨more, hmore, hnodup, hmem⟩ := ih (s.deleteKeyLocked key) (removed ++ [key])
      have hnew : key ∉ more := fun h => ((hgone key).mp ((hmem key).mp h).2).1 rfl
      refine ⟨key :: more, by rw [hmore, append_assoc]; rfl,
        nodup_cons.mpr ⟨hnew, hnodup⟩, fun k => ?_⟩
      rw [mem_cons, mem_cons, hmem, hgone]
      by_cases hk : k = key
      · simp [hk, hlive]
      · simp [hk]
    · rw [if_neg hlive]
      obtain ⟨more, hmore, hnodup, hmem⟩ := ih (s.deleteKeyLocked key) removed
      refine ⟨more, hmore, hnodup, fun k => ?_⟩
      rw [hmem, hgone, mem_cons]
      by_cases hk : k = key
      · simp [hk, hlive]
      · simp [hk]

/-- Deleting a key keeps the property. -/
def KeptByDeletion (I : Store → Prop) : Prop :=
  ∀ (s : Store) (key : Bytes), I s → I (s.deleteKeyLocked key)

namespace KeptByDeletion

variable {I : Store → Prop} {s : Store} {ρ : Type} (hI : KeptByDeletion I)

include hI

theorem foldl {keys : List Bytes} (h : I s) : I (keys.foldl deleteKeyLocked s) := by
  induction keys generalizing s with
  | nil => exact h
  | cons key keys ih => exact ih (hI s key h)

variable {keys : List Bytes}

theorem evictions {protectedKeys : List Bytes} {t : Store}
    (hevictions : Evictions protectedKeys s keys t) (h : I s) : I t := by
  induction hevictions with
  | done s => exact h
  | evict _ _ ih => exact ih (hI _ _ h)

section

variable (h : I s)
include h

theorem evictUntil (targetUsed : Int) (protectedKeys : List Bytes) (env : Env) :
    I (s.evictUntilMemoryAtOrBelowLocked targetUsed protectedKeys env).1 := by
  obtain ⟨keys, -, hevictions⟩ :=
    evictLoop_evictions protectedKeys targetUsed s.totalKeyCountLocked s env []
  unfold evictUntilMemoryAtOrBelowLocked
  simp only
  split
  · exact hI.evictions hevictions h
  · exact hI.evictions hevictions h

/-- Making room measures the store and evicts, unless there is nothing to do. -/
theorem ensure (delta : Int) (protectedKeys : List Bytes) (env : Env)
    (hmeasured : I (s.recalculateUsedMemoryLocked (env.now 0) (env.order 0))) :
    I (s.ensureMemoryAvailableLocked delta protectedKeys env).1 := by
  unfold ensureMemoryAvailableLocked
  simp only
  split
  · exact h
  split
  · exact hmeasured
  split
  · exact hmeasured
  split
  · exact hmeasured
  · exact hI.evictUntil hmeasured _ _ _

section

variable (key : Bytes) (env : Env)

theorem enforceMaxMemory (hmeasured : I (s.recalculateUsedMemoryLocked (env.now 0) (env.order 0)))
    (hpublish : ∀ t : Store, I t → I t.publishExpiredKeys) : I (s.enforceMaxMemory env).1 := by
  unfold Store.enforceMaxMemory
  split
  · refine hpublish _ ?_
    split
    · exact hmeasured
    · exact hI.evictUntil hmeasured _ _ _
  · exact h

theorem prepare (now : Int) : I (s.prepareExistingValueLocked key now).1 := by
  unfold prepareExistingValueLocked
  split
  · exact h
  · split
    · exact hI s key h
    · exact h

theorem delete : I (s.delete key env).1 := by
  unfold Store.delete
  split
  · exact h
  · exact hI s key h

theorem deleteLoop {now : Int} (removed : List Bytes) : I (deleteLoop now s keys removed).1 := by
  rw [deleteLoop_fst]
  exact hI.foldl h

theorem deleteMany (keys : List Bytes) (env : Env) : I (s.deleteMany keys env).1 := by
  rcases keys with _ | ⟨first, _ | ⟨second, rest⟩⟩
  · exact h
  · exact hI.delete h first env
  · exact hI.deleteLoop h []

/-- A read deletes a key past its deadline, or refreshes the stamp of its value. -/
theorem readKey (fn : ValueObject → Except StorageError ρ)
    (htouch : ∀ value, s.lookup key = some value → I (s.put key (value.touch (env.now 0)))) :
    I (s.readKey key env fn).1 := by
  unfold Store.readKey
  cases hlookup : s.lookup key with
  | none => exact h
  | some value =>
    simp only
    split
    · split
      · exact hI s key h
      · exact h
    · cases fn value with
      | error err => exact h
      | ok result => exact htouch value hlookup

theorem pfMerge (merged : Bytes) (env : Env)
    (htouch : ∀ {s : Store} {key : Bytes} {value : ValueObject} (t : Instant), I s →
      s.lookup key = some value → I (s.put key (value.touch t.millis))) :
    I (pfMerge s keys merged env).1 := by
  induction keys generalizing s merged env with
  | nil => exact h
  | cons key keys ih =>
    have hread := hI.readKey h key env (fun value => (stringValue value).bind hyperLogLogRegisters)
      fun value hvalue => htouch (env.clock 0) h hvalue
    unfold Store.pfMerge
    rcases hresult : s.readKey key env fun value => (stringValue value).bind hyperLogLogRegisters
      with ⟨s', err | registers | registers⟩
    · rw [hresult] at hread
      exact hread
    · rw [hresult] at hread
      exact ih hread _ _
    · rw [hresult] at hread
      exact ih hread _ _

/-- Taking from a value deletes the key, or leaves a value that is smaller. -/
theorem shrinkKey (stamp : Int) (absent : ρ)
    {fn : Payload → Except StorageError (Option (Payload × ρ))}
    (hleft : ∀ value payload result (hsound : payload.Sound), s.lookup key = some value →
      fn value.payload = .ok (some (payload, result)) →
      let left : ValueObject := ⟨payload, value.expiresAt, stamp, hsound⟩
      I (if s.maxMemoryEnabled then (s.put key left).addUsed (approximateValueObjectSize key left -
          if s.maxMemoryEnabled then approximateValueObjectSize key value else 0)
        else s.put key left)) : I (s.shrinkKey key env stamp absent fn).1 := by
  have hdeleted := hI s key h
  unfold Store.shrinkKey
  cases hlookup : s.lookup key with
  | none => exact h
  | some value =>
    simp only
    split
    · exact hdeleted
    · rcases htaken : fn value.payload with err | left | ⟨payload, result⟩
      · exact h
      · exact hdeleted
      · by_cases hsound : payload.Sound
        · simp only [dif_pos hsound]
          exact hleft value payload result hsound hlookup htaken
        · simp only [dif_neg hsound]
          rw [deleteKeyLocked, hlookup] at hdeleted
          exact hdeleted

end

end

end KeptByDeletion

end Store

end Stash
