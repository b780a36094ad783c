import Stash.ValueObject

/-!
# The store

The keyspace is split over shards, each key living in the shard its hash selects.  The store also
keeps a count of its keys by kind and, while a memory limit is set, the approximate number of
bytes in use; keys that a sweep has removed because their time was over are queued until they can
be published to the listener.

The lock a Go function takes is the atomic step it is: each function here is such a step.
-/

namespace Stash

open GoMap Function

/-- `Store`.  Which shard a key belongs to is a fixed function, as its seed is. -/
structure Store where
  shardCount : Nat
  shardIndex : Bytes → Fin shardCount
  shards : Fin shardCount → Map Bytes ValueObject
  /-- every key is stored in its own shard -/
  placed : ∀ i key, key ∈ shards i → shardIndex key = i
  usedMemory : Int
  keyKindCounts : Kind → Int
  /-- the limit in bytes; none is set when it is not positive -/
  maxMemory : Int
  memoryEvictionSampleSize : Nat
  sampled : 0 < memoryEvictionSampleSize
  pendingExpired : List Bytes
  /-- what the expiration listener has been called with -/
  published : List (List Bytes)

namespace Store

/-- There is a first shard, under one name for all modules. -/
instance neZeroShards : NeZero 256 :=
  ⟨by decide⟩

/-- `NewStore`: 256 shards, all empty, no memory limit. -/
def newStore (hash : Bytes → Fin 256) : Store where
  shardCount := 256
  shardIndex := hash
  shards := fun _ => ∅
  placed := fun _ _ h => absurd h (AList.notMem_empty _)
  usedMemory := 0
  keyKindCounts := fun _ => 0
  maxMemory := 0
  memoryEvictionSampleSize := 20
  sampled := by decide
  pendingExpired := []
  published := []

/-- The value stored under a key. -/
def lookup (s : Store) (key : Bytes) : Option ValueObject :=
  (s.shards (s.shardIndex key)).lookup key

/-- `maxMemoryEnabled`. -/
def maxMemoryEnabled (s : Store) : Bool :=
  0 < s.maxMemory

theorem enabled_of_eq {s s' : Store} (h : s'.maxMemory = s.maxMemory) :
    s'.maxMemoryEnabled = s.maxMemoryEnabled := by
  unfold maxMemoryEnabled
  rw [h]

/-! ## Storing and removing -/

/-- Put a value into the shard of its key. -/
def put (s : Store) (key : Bytes) (value : ValueObject) : Store :=
  { s with
    shards := update s.shards (s.shardIndex key)
      ((s.shards (s.shardIndex key)).insert key value)
    placed := by
      intro i k hk
      by_cases hi : i = s.shardIndex key
      · subst hi
        rw [update_self, AList.mem_insert] at hk
        rcases hk with rfl | hk
        · rfl
        · exact s.placed _ k hk
      · rw [update_of_ne hi] at hk
        exact s.placed i k hk }

/-- Take a key out of its shard. -/
def remove (s : Store) (key : Bytes) : Store :=
  { s with
    shards := update s.shards (s.shardIndex key)
      ((s.shards (s.shardIndex key)).erase key)
    placed := by
      intro i k hk
      by_cases hi : i = s.shardIndex key
      · subst hi
        rw [update_self, AList.mem_erase] at hk
        exact s.placed _ k hk.2
      · rw [update_of_ne hi] at hk
        exact s.placed i k hk }

/-- `adjustKeyKindCount`. -/
def adjustKeyKindCount (s : Store) (value : Option ValueObject) (delta : Int) : Store :=
  match value with
  | none => s
  | some value =>
    { s with
      keyKindCounts := update s.keyKindCounts value.payload.kind
        (s.keyKindCounts value.payload.kind + delta) }

/-- `setKeyLocked`. -/
def setKeyLocked (s : Store) (key : Bytes) (value : ValueObject) : Store :=
  let previous := s.lookup key
  let counted :=
    if previous.map (fun v => v.payload.kind) ≠ some value.payload.kind then
      (s.adjustKeyKindCount previous (-1)).adjustKeyKindCount (some value) 1
    else s
  counted.put key value

/-- `removeKeyLocked`. -/
def removeKeyLocked (s : Store) (key : Bytes) : Store :=
  (s.adjustKeyKindCount (s.lookup key) (-1)).remove key

/-- `usedMemory.Add`. -/
def addUsed (s : Store) (delta : Int) : Store :=
  { s with usedMemory := s.usedMemory + delta }

/-- `deleteKeyWithSizeLocked`. -/
def deleteKeyWithSizeLocked (s : Store) (key : Bytes) (size : Int) : Store :=
  match s.lookup key with
  | none => s
  | some _ => (if s.maxMemoryEnabled then s.addUsed (-size) else s).removeKeyLocked key

/-- `deleteKeyLocked`. -/
def deleteKeyLocked (s : Store) (key : Bytes) : Store :=
  match s.lookup key with
  | none => s
  | some value =>
    s.deleteKeyWithSizeLocked key
      (if s.maxMemoryEnabled then approximateValueObjectSize key value else 0)

/-- `prepareExistingValueLocked`: a key past its deadline is deleted and counts as absent. -/
def prepareExistingValueLocked (s : Store) (key : Bytes) (now : Int) :
    Store × Option ValueObject :=
  match s.lookup key with
  | none => (s, none)
  | some value =>
    if isExpired value.expiresAt now then (s.deleteKeyLocked key, none) else (s, some value)

/-! ## What the primitives do to the keys -/

variable (s : Store) (key : Bytes)

@[simp] theorem lookup_put (key k : Bytes) (value : ValueObject) :
    (s.put key value).lookup k = if k = key then some value else s.lookup k := by
  change (update s.shards (s.shardIndex key) _ (s.shardIndex k)).lookup k = _
  by_cases hk : k = key
  · subst hk
    rw [update_self, AList.lookup_insert, if_pos rfl]
  · rw [if_neg hk]
    by_cases hi : s.shardIndex k = s.shardIndex key
    · rw [hi, update_self, AList.lookup_insert_ne hk, lookup, hi]
    · rw [update_of_ne hi]
      rfl

@[simp] theorem lookup_remove (key k : Bytes) :
    (s.remove key).lookup k = if k = key then none else s.lookup k := by
  change (update s.shards (s.shardIndex key) _ (s.shardIndex k)).lookup k = _
  by_cases hk : k = key
  · subst hk
    rw [update_self, AList.lookup_erase, if_pos rfl]
  · rw [if_neg hk]
    by_cases hi : s.shardIndex k = s.shardIndex key
    · rw [hi, update_self, AList.lookup_erase_ne hk, lookup, hi]
    · rw [update_of_ne hi]
      rfl

variable (value : Option ValueObject) (delta : Int) (now : Int) (k : Bytes)

@[simp] theorem lookup_adjustCount : (s.adjustKeyKindCount value delta).lookup k = s.lookup k := by
  cases value <;> rfl

@[simp] theorem lookup_setKey (key k : Bytes) (value : ValueObject) :
    (s.setKeyLocked key value).lookup k = if k = key then some value else s.lookup k := by
  unfold setKeyLocked
  simp only [lookup_put]
  split
  · rfl
  · split <;> simp

@[simp] theorem lookup_removeKey (key k : Bytes) :
    (s.removeKeyLocked key).lookup k = if k = key then none else s.lookup k := by
  simp [removeKeyLocked]

@[simp] theorem lookup_addUsed : (s.addUsed delta).lookup k = s.lookup k := rfl

@[simp] theorem lookup_deleteKeyWithSize (key k : Bytes) (size : Int) :
    (s.deleteKeyWithSizeLocked key size).lookup k = if k = key then none else s.lookup k := by
  unfold deleteKeyWithSizeLocked
  split
  · rename_i hnone
    split
    · rename_i hk
      rw [hk, hnone]
    · rfl
  · rw [lookup_removeKey]
    split
    · rfl
    · split <;> rfl

@[simp] theorem lookup_deleteKey (key k : Bytes) :
    (s.deleteKeyLocked key).lookup k = if k = key then none else s.lookup k := by
  unfold deleteKeyLocked
  split
  · rename_i hnone
    split
    · rename_i hk
      rw [hk, hnone]
    · rfl
  · exact lookup_deleteKeyWithSize _ _ _ _

/-- The value of a key as long as its time is not over. -/
def liveValue (value : Option ValueObject) (now : Int) : Option ValueObject :=
  value.filter fun v => !isExpired v.expiresAt now

theorem liveValue_some (value : ValueObject) (now : Int) :
    liveValue (some value) now = if isExpired value.expiresAt now then none else some value := by
  rw [liveValue, Option.filter_some]
  cases isExpired value.expiresAt now <;> rfl

theorem prepare_snd : (s.prepareExistingValueLocked key now).2 = liveValue (s.lookup key) now := by
  unfold prepareExistingValueLocked
  cases s.lookup key with
  | none => rfl
  | some value =>
    rw [liveValue_some]
    simp only
    split <;> rfl

/-- Preparing a key leaves its live value and everything else. -/
theorem lookup_prepare (key k : Bytes) (now : Int) :
    (s.prepareExistingValueLocked key now).1.lookup k =
      if k = key then liveValue (s.lookup key) now else s.lookup k := by
  have hsame : s.lookup k = if k = key then s.lookup key else s.lookup k := by
    split
    · rename_i hk
      rw [hk]
    · rfl
  unfold prepareExistingValueLocked
  cases hlookup : s.lookup key with
  | none => exact hsame.trans (by rw [hlookup]; rfl)
  | some value =>
    simp only [liveValue_some]
    split
    · exact lookup_deleteKey _ _ _
    · exact hsame.trans (by rw [hlookup])

/-! ## What the primitives leave alone -/

@[simp] theorem maxMemory_put (value : ValueObject) :
    (s.put key value).maxMemory = s.maxMemory := rfl

@[simp] theorem maxMemory_remove : (s.remove key).maxMemory = s.maxMemory := rfl

@[simp] theorem maxMemory_addUsed : (s.addUsed delta).maxMemory = s.maxMemory := rfl

@[simp] theorem maxMemory_adjustCount : (s.adjustKeyKindCount value delta).maxMemory = s.maxMemory := by
  cases value <;> rfl

@[simp] theorem maxMemory_setKey (value : ValueObject) :
    (s.setKeyLocked key value).maxMemory = s.maxMemory := by
  unfold setKeyLocked
  simp only [maxMemory_put]
  split <;> simp

@[simp] theorem maxMemory_removeKey : (s.removeKeyLocked key).maxMemory = s.maxMemory := by
  simp [removeKeyLocked]

@[simp] theorem maxMemory_deleteKeyWithSize (size : Int) :
    (s.deleteKeyWithSizeLocked key size).maxMemory = s.maxMemory := by
  unfold deleteKeyWithSizeLocked
  split
  · rfl
  · rw [maxMemory_removeKey]
    split <;> rfl

@[simp] theorem maxMemory_deleteKey : (s.deleteKeyLocked key).maxMemory = s.maxMemory := by
  unfold deleteKeyLocked
  split
  · rfl
  · exact maxMemory_deleteKeyWithSize _ _ _

@[simp] theorem maxMemory_prepare :
    (s.prepareExistingValueLocked key now).1.maxMemory = s.maxMemory := by
  unfold prepareExistingValueLocked
  split
  · rfl
  · split <;> simp

end Store

end Stash
