import Stash.StoreMemory
import Stash.StringValue

/-!
# The operations of the store

Writes of one key are given by what they do with the value they find (`setAction`, `hSetAction`
and so on) and run through `writeKey`.  Pops and removals never need room and take their shard's
lock themselves; they share `shrinkKey`, which deletes a key whose collection became empty.
Reads go through `readKey`.
-/

namespace Stash

open DecimalText GoMap List

namespace Store

/-! ## Strings -/

def setAction (value : Bytes) (expiresAt stamp : Int) (_ : KeyWrite) : WriteAction Unit :=
  .commit (.ofString value expiresAt stamp) ()

/-- `Set`. -/
def set (s : Store) (key value : Bytes) (expiresAt : Int) (env : Env) :
    Store × Except StorageError (Unit × List Bytes) :=
  s.writeKey key env (setAction value expiresAt (env.now 1))

def incrementAction (stamp : Int) (write : KeyWrite) : WriteAction Int :=
  match write.current with
  | none => .commit (.ofString (ascii "1") 0 stamp) 1
  | some current =>
    match current.payload with
    | .string data =>
      match incrementedValue data with
      | .error err => .fail err
      | .ok parsed =>
        let next := ValueObject.ofString (formatInt parsed) current.expiresAt write.now.millis
        if write.accounting then .commit next parsed else .inPlace next parsed
    | _ => .fail .wrongType

/-- `Increment`. -/
def increment (s : Store) (key : Bytes) (env : Env) :
    Store × Except StorageError (Int × List Bytes) :=
  s.writeKey key env (incrementAction (env.now 1))

def setBitAction (offset bit : Int) (write : KeyWrite) : WriteAction Int :=
  match write.current with
  | none =>
    .commit (.ofString (setBitPayload [] offset bit) 0 write.now.millis) (bitAt [] offset)
  | some current =>
    match current.payload with
    | .string data =>
      let next :=
        ValueObject.ofString (setBitPayload data offset bit) current.expiresAt write.now.millis
      -- a bit inside the payload is flipped where it lies, unless the write is accounted
      if (offset / 8).toNat < data.length && !write.accounting then
        .inPlace next (bitAt data offset)
      else .commit next (bitAt data offset)
    | _ => .fail .wrongType

/-- `SetBit`. -/
def setBit (s : Store) (key : Bytes) (offset bit : Int) (env : Env) :
    Store × Except StorageError (Int × List Bytes) :=
  match validateBitmapArguments offset bit with
  | .error err => (s, .error err)
  | .ok () => s.writeKey key env (setBitAction offset bit)

def pfAddAction (elements : List Bytes) (write : KeyWrite) : WriteAction Int :=
  match write.current with
  | none => .commit (.ofString (pfAddNew elements) 0 write.now.millis) 1
  | some current =>
    match current.payload with
    | .string data =>
      match pfAddExisting data elements with
      | .error err => .fail err
      | .ok (updated, changed) =>
        -- the size is fixed, so the registers are written in place even while accounting
        .inPlace (.ofString updated current.expiresAt write.now.millis) (if changed then 1 else 0)
    | _ => .fail .wrongType

/-- `PFAdd`. -/
def pfAdd (s : Store) (key : Bytes) (elements : List Bytes) (env : Env) :
    Store × Except StorageError (Int × List Bytes) :=
  s.writeKey key env (pfAddAction elements)

/-! ## Lists -/

/-- The list after a push: the values of a left push end up in reverse order. -/
def pushItems (left : Bool) (items values : List Bytes) : List Bytes :=
  if left then values.reverse ++ items else items ++ values

theorem pushItems_ne_nil {left : Bool} {items values : List Bytes} (h : values ≠ []) :
    pushItems left items values ≠ [] := by
  cases left <;> simp [pushItems, h]

def pushAction (left : Bool) (values : List Bytes) (h : values ≠ []) (stamp : Int)
    (write : KeyWrite) : WriteAction Nat :=
  match write.current with
  | none =>
    .commit ⟨.list (pushItems left [] values), 0, stamp, pushItems_ne_nil h⟩
      (pushItems left [] values).length
  | some current =>
    match current.payload with
    | .list items =>
      -- an accounted push may be refused, so it appends to a copy
      let list := if write.accounting then copyList items else items
      .commit ⟨.list (pushItems left list values), current.expiresAt, stamp, pushItems_ne_nil h⟩
        (pushItems left list values).length
    | _ => .fail .wrongType

/-- What a copy shares with its original is there whether or not it was taken. -/
theorem apply_ite_copy {α β : Type} {f : α → β} {copy original : α} (h : f copy = f original)
    (accounting : Bool) : f (if accounting then copy else original) = f original := by
  cases accounting
  · rfl
  · exact h

theorem ite_copyList (accounting : Bool) (items : List Bytes) :
    (if accounting then copyList items else items) = items := by
  rw [copyList_eq, ite_self]

/-- `pushList`: `LeftPush` and `RightPush`. -/
def pushList (s : Store) (key : Bytes) (left : Bool) (values : List Bytes) (env : Env) :
    Store × Except StorageError (Nat × List Bytes) :=
  if h : values = [] then (s, .error .syntaxError)
  else s.writeKey key env (pushAction left values h (env.now 1))

/-- The part that pops and removals have in common.  `fn` gives the payload that is left and the
answer, or nothing when there was nothing to take from. -/
def shrinkKey {ρ : Type} (s : Store) (key : Bytes) (env : Env) (stamp : Int) (absent : ρ)
    (fn : Payload → Except StorageError (Option (Payload × ρ))) :
    Store × Except StorageError ρ :=
  match s.lookup key with
  | none => (s, .ok absent)
  | some value =>
    if isExpired value.expiresAt (env.now 0) then (s.deleteKeyLocked key, .ok absent)
    else
      match fn value.payload with
      | .error err => (s, .error err)
      | .ok none => (s.deleteKeyLocked key, .ok absent)
      | .ok (some (payload, result)) =>
        let oldSize := if s.maxMemoryEnabled then approximateValueObjectSize key value else 0
        if h : payload.Sound then
          let left : ValueObject := ⟨payload, value.expiresAt, stamp, h⟩
          let stored := s.put key left
          (if s.maxMemoryEnabled then
            stored.addUsed (approximateValueObjectSize key left - oldSize)
          else stored, .ok result)
        else (s.deleteKeyWithSizeLocked key oldSize, .ok result)

def popPayload (left : Bool) : Payload → Except StorageError (Option (Payload × Option Bytes))
  | .list [] => .ok none
  | .list (item :: items) =>
    if left then .ok (some (.list items, some item))
    else .ok (some (.list (item :: items).dropLast, (item :: items).getLast?))
  | _ => .error .wrongType

/-- `LeftPop` and `RightPop`. -/
def pop (s : Store) (key : Bytes) (left : Bool) (env : Env) :
    Store × Except StorageError (Option Bytes) :=
  s.shrinkKey key env (env.now 1) none (popPayload left)

def popNPayload (left : Bool) (count : Nat) :
    Payload → Except StorageError (Option (Payload × Option (List Bytes)))
  | .list [] => .ok none
  | .list items =>
    if left then .ok (some (.list (items.drop count), some (items.take count)))
    else
      .ok (some (.list (items.take (items.length - count)),
        some (items.drop (items.length - count)).reverse))
  | _ => .error .wrongType

/-- `popN`: `LeftPopN` and `RightPopN`. -/
def popN (s : Store) (key : Bytes) (left : Bool) (count : Int) (env : Env) :
    Store × Except StorageError (Option (List Bytes)) :=
  if count < 0 then (s, .error .syntaxError)
  else s.shrinkKey key env (env.now 1) none (popNPayload left count.toNat)

/-! ## Sorted sets -/

def zAddAction (entries : List ZSetEntry) (h : entries ≠ []) (order : MapOrder Bytes)
    (write : KeyWrite) : WriteAction Nat :=
  match write.current with
  | none =>
    .commit ⟨.zset (.ofEntries order entries), 0, write.now.millis,
      Payload.sound_zset_ofEntries order h⟩ (ZSetRep.ofEntries order entries).len
  | some current =>
    match current.payload with
    | .zset rep =>
      -- while accounting a copy is changed, so that a refused write leaves the stored set alone
      let target := if write.accounting then rep.clone else rep
      .commit ⟨.zset (target.add entries).1, current.expiresAt, write.now.millis,
        Payload.sound_zset_add target h⟩ (target.add entries).2
    | _ => .fail .wrongType

/-- `ZAdd`. -/
def zAdd (s : Store) (key : Bytes) (entries : List ZSetEntry) (env : Env) :
    Store × Except StorageError (Nat × List Bytes) :=
  if h : entries = [] then (s, .error .syntaxError)
  else s.writeKey key env (zAddAction entries h (env.order 0))

/-! ## Streams -/

/-- The payload after an entry was added to a stream of paired values. -/
def streamPayload (stream : StreamValue)
    (hpaired : ∀ record ∈ stream.entries, Payload.PairedValues record.values) (rawID : Bytes)
    (values : List Bytes) (hvalues : Payload.PairedValues values) (now : Instant) :
    Except StorageError ({payload : Payload // payload.Sound} × Bytes) :=
  match h : admitID stream.last rawID now.millis with
  | .error err => .error err
  | .ok id =>
    .ok (⟨.stream (stream.push rawID values now id h), by
      refine ⟨by simp [StreamValue.push], fun record hrecord => ?_⟩
      rcases mem_append.mp hrecord with hrecord | hrecord
      · exact hpaired record hrecord
      · obtain rfl := mem_singleton.mp hrecord
        exact hvalues⟩, id.text)

theorem ite_clone (accounting : Bool) (stream : StreamValue) :
    (if accounting then stream.clone else stream) = stream := by
  rw [stream.clone_eq, ite_self]

def xAddAction (rawID : Bytes) (values : List Bytes) (hvalues : Payload.PairedValues values)
    (write : KeyWrite) : WriteAction Bytes :=
  match write.current with
  | none =>
    match streamPayload .empty (fun _ h => by cases h) rawID values hvalues write.now with
    | .error err => .fail err
    | .ok (payload, id) => .commit ⟨payload, 0, write.now.millis, payload.2⟩ id
  | some ⟨.stream existing, expiresAt, _, hsound⟩ =>
    let stream := if write.accounting then existing.clone else existing
    have hstream : stream = existing := ite_clone write.accounting existing
    match streamPayload stream (hstream ▸ hsound.2) rawID values hvalues write.now with
    | .error err => .fail err
    | .ok (payload, id) => .commit ⟨payload, expiresAt, write.now.millis, payload.2⟩ id
  | some _ => .fail .wrongType

/-- `XAdd`. -/
def xAdd (s : Store) (key rawID : Bytes) (values : List Bytes) (env : Env) :
    Store × Except StorageError (Bytes × List Bytes) :=
  if h : Payload.PairedValues values then s.writeKey key env (xAddAction rawID values h)
  else (s, .error .syntaxError)

/-! ## Hashes and sets -/

def hSetAction (pairs : List HashFieldValue) (h : pairs ≠ []) (order : MapOrder Bytes)
    (write : KeyWrite) : WriteAction Nat :=
  match write.current with
  | none =>
    .commit ⟨.hash (.ofPairs order pairs), 0, write.now.millis,
      Payload.sound_hash_ofPairs order h⟩ (HashRep.ofPairs order pairs).len
  | some current =>
    match current.payload with
    | .hash rep =>
      let target := if write.accounting then rep.clone order else rep
      .commit ⟨.hash (target.set pairs).1, current.expiresAt, write.now.millis,
        Payload.sound_hash_set target h⟩ (target.set pairs).2
    | _ => .fail .wrongType

/-- `HSet`. -/
def hSet (s : Store) (key : Bytes) (pairs : List HashFieldValue) (env : Env) :
    Store × Except StorageError (Nat × List Bytes) :=
  if h : pairs = [] then (s, .error .syntaxError)
  else s.writeKey key env (hSetAction pairs h (env.order 0))

def hDelPayload (fields : List Bytes) :
    Payload → Except StorageError (Option (Payload × Nat))
  | .hash rep => .ok (some (.hash (rep.del fields).1, (rep.del fields).2))
  | _ => .error .wrongType

/-- `HDel`. -/
def hDel (s : Store) (key : Bytes) (fields : List Bytes) (env : Env) :
    Store × Except StorageError Nat :=
  if fields = [] then (s, .error .syntaxError)
  else s.shrinkKey key env (env.now 1) 0 (hDelPayload fields)

def sAddAction (members : List Bytes) (h : members ≠ []) (order : MapOrder Bytes)
    (write : KeyWrite) : WriteAction Nat :=
  match write.current with
  | none =>
    .commit ⟨.set (.ofMembers members), 0, write.now.millis, Payload.sound_set_ofMembers h⟩
      (SetRep.ofMembers members).len
  | some current =>
    match current.payload with
    | .set rep =>
      let target := if write.accounting then rep.clone order else rep
      .commit ⟨.set (target.add members).1, current.expiresAt, write.now.millis,
        Payload.sound_set_add target h⟩ (target.add members).2
    | _ => .fail .wrongType

/-- `SAdd`. -/
def sAdd (s : Store) (key : Bytes) (members : List Bytes) (env : Env) :
    Store × Except StorageError (Nat × List Bytes) :=
  if h : members = [] then (s, .error .syntaxError)
  else s.writeKey key env (sAddAction members h (env.order 0))

def sRemPayload (members : List Bytes) :
    Payload → Except StorageError (Option (Payload × Nat))
  | .set rep => .ok (some (.set (rep.remove members).1, (rep.remove members).2))
  | _ => .error .wrongType

/-- `SRem`: the access stamp is the first reading here. -/
def sRem (s : Store) (key : Bytes) (members : List Bytes) (env : Env) :
    Store × Except StorageError Nat :=
  if members = [] then (s, .error .syntaxError)
  else s.shrinkKey key env (env.now 0) 0 (sRemPayload members)

/-! ## Deleting -/

/-- `Delete`: an expired key is deleted but was not there. -/
def delete (s : Store) (key : Bytes) (env : Env) : Store × Bool :=
  match s.lookup key with
  | none => (s, false)
  | some value => (s.deleteKeyLocked key, !isExpired value.expiresAt (env.now 0))

/-- `groupKeysByShard`: the keys of each shard, in the order given. -/
def groupKeysByShard (s : Store) (keys : List Bytes) : List Bytes :=
  (List.finRange s.shardCount).flatMap fun i => keys.filter fun key => s.shardIndex key = i

/-- The loop of `DeleteMany` over the grouped keys. -/
def deleteLoop (now : Int) : Store → List Bytes → List Bytes → Store × List Bytes
  | s, [], removed => (s, removed)
  | s, key :: keys, removed =>
    match s.lookup key with
    | none => deleteLoop now s keys removed
    | some value =>
      if isExpired value.expiresAt now then deleteLoop now (s.deleteKeyLocked key) keys removed
      else deleteLoop now (s.deleteKeyLocked key) keys (removed ++ [key])

/-- `DeleteMany`. -/
def deleteMany (s : Store) (keys : List Bytes) (env : Env) : Store × List Bytes :=
  match keys with
  | [] => (s, [])
  | [key] =>
    let (s', removed) := s.delete key env
    (s', if removed then [key] else [])
  | keys => deleteLoop (env.now 0) s (s.groupKeysByShard keys) []

/-! ## Reading -/

/-- `StringValue`. -/
def stringValue (value : ValueObject) : Except StorageError Bytes :=
  match value.payload with
  | .string data => .ok data
  | _ => .error .wrongType

/-- `Get`. -/
def get (s : Store) (key : Bytes) (env : Env) : Store × Except StorageError (Option Bytes) :=
  s.readKey key env stringValue

/-- `GetBit`. -/
def getBit (s : Store) (key : Bytes) (offset : Int) (env : Env) :
    Store × Except StorageError (Option Int) :=
  match validateBitmapOffset offset with
  | .error err => (s, .error err)
  | .ok () => s.readKey key env fun value => (stringValue value).map fun data => bitAt data offset

/-- `BitCount`. -/
def bitCount (s : Store) (key : Bytes) (range : Option (Int × Int)) (env : Env) :
    Store × Except StorageError (Option Int) :=
  s.readKey key env fun value => (stringValue value).map fun data => countBits data range

/-- Register-wise maximum. -/
def mergeRegisters (merged registers : Bytes) : Bytes :=
  merged.zipWith (fun a b => if a < b then b else a) registers

/-- The loop of `PFCount` over the keys; each read takes its own clock readings. -/
def pfMerge : Store → List Bytes → Bytes → Env → Store × Except StorageError Bytes
  | s, [], merged, _ => (s, .ok merged)
  | s, key :: keys, merged, env =>
    match s.readKey key env fun value => (stringValue value).bind hyperLogLogRegisters with
    | (s', .error err) => (s', .error err)
    | (s', .ok none) => pfMerge s' keys merged (env.after 2)
    | (s', .ok (some registers)) => pfMerge s' keys (mergeRegisters merged registers) (env.after 2)

/-- `PFCount`, up to the estimate of the merged registers. -/
def pfCount (s : Store) (keys : List Bytes) (env : Env) : Store × Except StorageError Bytes :=
  pfMerge s keys (List.replicate hllRegisterCount 0) env

/-- `normalizeListIndex`. -/
def normalizeListIndex (length : Nat) (index : Int) : Int :=
  let resolved := if index < 0 then index + length else index
  if resolved < 0 then -1 else if (length : Int) ≤ resolved then length else resolved

/-- `normalizeListRange`. -/
def normalizeListRange (length : Nat) (start stop : Int) : Option (Nat × Nat) :=
  if length = 0 then none
  else
    let first := max (normalizeListIndex length start) 0
    let last := normalizeListIndex length stop
    if last < 0 ∨ (length : Int) ≤ first then none
    else
      let last := min last (length - 1)
      if last < first then none else some (first.toNat, last.toNat)

/-- `ListRange`. -/
def listRange (s : Store) (key : Bytes) (start stop : Int) (env : Env) :
    Store × Except StorageError (Option (List Bytes)) :=
  s.readKey key env fun value =>
    match value.payload with
    | .list items =>
      match normalizeListRange items.length start stop with
      | none => .ok []
      | some (first, last) => .ok ((items.drop first).take (last + 1 - first))
    | _ => .error .wrongType

/-- `ZScores`. -/
def zScores (s : Store) (key : Bytes) (members : List Bytes) (env : Env) :
    Store × Except StorageError (Option (List (Option Score))) :=
  s.readKey key env fun value =>
    match value.payload with
    | .zset rep => .ok (members.map rep.score)
    | _ => .error .wrongType

/-- `ZRange`. -/
def zRange (s : Store) (key : Bytes) (start stop : Int) (env : Env) :
    Store × Except StorageError (Option (List ZSetEntry)) :=
  s.readKey key env fun value =>
    match value.payload with
    | .zset rep =>
      match normalizeListRange rep.len start stop with
      | none => .ok []
      | some (first, last) => .ok (rangeByRank rep.entries first last)
    | _ => .error .wrongType

/-- `ZRangeByScores`, for the members that `within` selects. -/
def zRangeWithin (s : Store) (key : Bytes) (within : Score → Bool) (env : Env) :
    Store × Except StorageError (Option (List ZSetEntry)) :=
  s.readKey key env fun value =>
    match value.payload with
    | .zset rep => .ok (rep.entries.filter fun entry => within entry.score)
    | _ => .error .wrongType

/-- `XRead`. -/
def xRead (s : Store) (key rawID : Bytes) (env : Env) :
    Store × Except StorageError (Option (List StreamEntry)) :=
  s.readKey key env fun value =>
    match value.payload with
    | .stream stream => stream.entriesAfter rawID
    | _ => .error .wrongType

/-- `HGet`. -/
def hGet (s : Store) (key field : Bytes) (env : Env) :
    Store × Except StorageError (Option (Option Bytes)) :=
  s.readKey key env fun value =>
    match value.payload with
    | .hash rep => .ok (rep.get field)
    | _ => .error .wrongType

/-- `HGetAll`. -/
def hGetAll (s : Store) (key : Bytes) (env : Env) :
    Store × Except StorageError (Option (List HashFieldValue)) :=
  s.readKey key env fun value =>
    match value.payload with
    | .hash rep => .ok (rep.entries (env.order 0))
    | _ => .error .wrongType

/-- `SIsMember`. -/
def sIsMember (s : Store) (key member : Bytes) (env : Env) :
    Store × Except StorageError (Option Bool) :=
  s.readKey key env fun value =>
    match value.payload with
    | .set rep => .ok (rep.contains member)
    | _ => .error .wrongType

/-- `SMembers`. -/
def sMembers (s : Store) (key : Bytes) (env : Env) :
    Store × Except StorageError (Option (List Bytes)) :=
  s.readKey key env fun value =>
    match value.payload with
    | .set rep => .ok (rep.members (env.order 0))
    | _ => .error .wrongType

/-! ## Limits, sweeps and replacement -/

/-- `ConfigureMaxMemory`. -/
def configureMaxMemory (s : Store) (limit sampleSize : Int) (env : Env) : Store :=
  let s' := { s with
    maxMemory := max limit 0
    memoryEvictionSampleSize := if sampleSize ≤ 0 then 20 else sampleSize.toNat
    sampled := by split <;> omega }
  (if 0 < limit then s'.recalculateUsedMemoryLocked (env.now 0) (env.order 0)
    else { s' with usedMemory := 0 }).publishExpiredKeys

/-- `EnforceMaxMemory`. -/
def enforceMaxMemory (s : Store) (env : Env) : Store × Except StorageError (List Bytes) :=
  if s.maxMemoryEnabled then
    let measured := s.recalculateUsedMemoryLocked (env.now 0) (env.order 0)
    let (s', result) :=
      if measured.usedMemory ≤ s.maxMemory then (measured, .ok [])
      else measured.evictUntilMemoryAtOrBelowLocked s.maxMemory [] (env.after 1)
    (s'.publishExpiredKeys, result)
  else (s, .ok [])

/-- The keys of `evictExpiredSample` that have expired. -/
def expiredKeys (s : Store) (keys : List Bytes) (now : Int) : List Bytes :=
  keys.filter fun key => (s.lookup key).any fun value => isExpired value.expiresAt now

/-- `evictExpiredSample` of sampled keys, grouped by shard, and the publication that follows. -/
def evictExpiredSample (s : Store) (sampleSize : Nat) (env : Env) : Store :=
  let sampled := (((List.finRange s.shardCount).rotate ((env.clock 1).nanos % s.shardCount)).flatMap
    fun i => (iterate (env.order 0) (s.shards i)).map Prod.fst).take sampleSize
  let expired := s.expiredKeys (s.groupKeysByShard sampled) (env.now 0)
  ((expired.foldl deleteKeyLocked s).noteExpiredKeysLocked expired).publishExpiredKeys

/-- The shard maps of `ReplaceWith`: every value of the other store, in the shard of its key
here. -/
def replacementShard (s other : Store) (order : MapOrder Bytes) (i : Fin s.shardCount) :
    Map Bytes ValueObject :=
  ((other.allEntries order).filter fun e => s.shardIndex e.1 = i).foldl
    (fun shard e => shard.insert e.1 e.2) ∅

/-- `recalculateKeyStatsLocked`. -/
def countKinds (entries : List (Bytes × ValueObject)) (kind : Kind) : Int :=
  (entries.filter fun e => e.2.payload.kind = kind).length

theorem mem_foldl_insert_keys (entries : List (Bytes × ValueObject)) (m : Map Bytes ValueObject)
    {key : Bytes} (h : key ∈ entries.foldl (fun shard e => shard.insert e.1 e.2) m) :
    key ∈ m ∨ key ∈ entries.map Prod.fst := by
  induction entries generalizing m with
  | nil => exact .inl h
  | cons e entries ih =>
    rcases ih _ h with h | h
    · rw [AList.mem_insert] at h
      rcases h with rfl | h
      · exact .inr mem_cons_self
      · exact .inl h
    · exact .inr (mem_cons_of_mem _ h)

/-- `ReplaceWith`.  The values are shared with the other store, which its only caller has just loaded
and drops. -/
def replaceWith (s other : Store) (env : Env) : Store :=
  let replaced : Store :=
    { s with
      shards := s.replacementShard other (env.order 0)
      placed := by
        intro i key h
        rcases mem_foldl_insert_keys _ _ h with h | h
        · exact absurd h (AList.notMem_empty _)
        · obtain ⟨e, he, rfl⟩ := mem_map.mp h
          simpa using (mem_filter.mp he).2
      keyKindCounts := countKinds (other.allEntries (env.order 0)) }
  (if s.maxMemoryEnabled then replaced.recalculateUsedMemoryLocked (env.now 0) (env.order 1)
    else replaced).publishExpiredKeys

end Store

end Stash
