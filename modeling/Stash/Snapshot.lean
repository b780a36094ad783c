import Stash.StoreMemory

/-!
# Snapshots

Copies of the keyspace: all live values, for the rewrite of the append-only file, and the live
strings, which a full resynchronisation sends as an RDB payload.
-/

namespace Stash

open DecimalText GoMap List

/-- The payload of a snapshot entry, by kind. -/
inductive SnapshotValue where
  | string (data : Bytes)
  | list (items : List Bytes)
  | zset (entries : List ZSetEntry)
  | stream (entries : List StreamEntry)
  | hash (entries : List HashFieldValue)
  | set (members : List Bytes)

/-- `SnapshotEntry`. -/
structure SnapshotEntry where
  key : Bytes
  expiresAt : Int
  value : SnapshotValue

/-- `StringSnapshotEntry`. -/
structure StringSnapshotEntry where
  key : Bytes
  value : Bytes
  expiresAt : Int

/-- The payload as it is copied out. -/
def Payload.snapshot (order : MapOrder Bytes) : Payload → SnapshotValue
  | .string data => .string data
  | .list items => .list items
  | .zset rep => .zset (rangeByRank rep.entries 0 (rep.len - 1))
  | .stream s => .stream (streamEntries s.entries)
  | .hash rep => .hash (rep.entries order)
  | .set rep => .set (rep.members order)

namespace Store

/-- The keys and values that are live. -/
def liveEntries (s : Store) (now : Int) (order : MapOrder Bytes) : List (Bytes × ValueObject) :=
  (s.allEntries order).filter fun e => !isExpired e.2.expiresAt now

/-- `snapshotAllLocked`, the entries. -/
def snapshotAll (s : Store) (env : Env) : List SnapshotEntry :=
  (s.liveEntries (env.now 0) (env.order 0)).map fun e =>
    ⟨e.1, e.2.expiresAt, e.2.payload.snapshot (env.order 1)⟩

/-- `SnapshotStrings`, the entries. -/
def snapshotStrings (s : Store) (env : Env) : List StringSnapshotEntry :=
  (s.liveEntries (env.now 0) (env.order 0)).filterMap fun e =>
    match e.2.payload with
    | .string data => some ⟨e.1, data, e.2.expiresAt⟩
    | _ => none

end Store

/-- What keeps its name through a selection has its names among those selected from. -/
theorem names_filterMap_sublist {α β γ : Type} {f : α → Option β} {name : α → γ} {name' : β → γ}
    (h : ∀ {a b}, f a = some b → name' b = name a) (l : List α) :
    ((l.filterMap f).map name').Sublist (l.map name) := by
  induction l with
  | nil => exact .slnil
  | cons a l ih =>
    cases hfa : f a with
    | none =>
      rw [filterMap_cons_none hfa]
      exact ih.cons _
    | some b =>
      rw [filterMap_cons_some hfa, map_cons, map_cons, h hfa]
      exact ih.cons_cons _

theorem nodup_snapshotStrings (s : Store) (env : Env) :
    ((s.snapshotStrings env).map StringSnapshotEntry.key).Nodup := by
  have hlive : ((s.liveEntries (env.now 0) (env.order 0)).map Prod.fst).Nodup :=
    (s.nodup_allEntries (env.order 0)).sublist (filter_sublist.map Prod.fst)
  refine hlive.sublist (names_filterMap_sublist (fun {p e} h => ?_) _)
  split at h
  · cases h
    rfl
  · cases h

/-- The order of `sort.Strings` and of the comparisons by key. -/
def bytesLe (x y : Bytes) : Prop :=
  bytesLess y x = false

instance : DecidableRel bytesLe :=
  fun x y => inferInstanceAs (Decidable (bytesLess y x = false))

/-- Sort by a name. -/
def sortBy {ε : Type} (name : ε → Bytes) (entries : List ε) : List ε :=
  entries.insertionSort fun a b => bytesLe (name a) (name b)

theorem perm_sortBy {ε : Type} (name : ε → Bytes) (entries : List ε) :
    (sortBy name entries).Perm entries :=
  perm_insertionSort _ entries

/-! ## The RDB payload -/

namespace Rdb

def fileHeader : Bytes := ascii "REDIS0011"
def opcodeExpireTimeMS : UInt8 := 0xFC
def opcodeSelectDB : UInt8 := 0xFE
def opcodeEOF : UInt8 := 0xFF
def valueTypeString : UInt8 := 0x00

/-- The bytes of a number, least significant first. -/
def littleEndian (width n : Nat) : Bytes :=
  (List.range width).map fun i => UInt8.ofNat (n / 256 ^ i)

theorem length_littleEndian (width n : Nat) : (littleEndian width n).length = width := by
  simp [littleEndian]

/-- `appendLength`: only the low 32 bits of a long length are kept. -/
def encodeLength (length : Nat) : Bytes :=
  if length < 2 ^ 6 then [UInt8.ofNat length]
  else if length < 2 ^ 14 then [UInt8.ofNat (length / 256 + 64), UInt8.ofNat length]
  else 0x80 :: (littleEndian 4 length).reverse

/-- `appendString`. -/
def encodeString (value : Bytes) : Bytes :=
  encodeLength value.length ++ value

/-- One key of the payload; a deadline that has been reached drops the key. -/
def encodeEntry (now : Int) (entry : StringSnapshotEntry) : Bytes :=
  if 0 < entry.expiresAt ∧ entry.expiresAt ≤ now then []
  else
    (if 0 < entry.expiresAt then opcodeExpireTimeMS :: littleEndian 8 entry.expiresAt.toNat
      else []) ++
    valueTypeString :: (encodeString entry.key ++ encodeString entry.value)

/-- `EmptySnapshot`. -/
def emptySnapshot : Bytes :=
  fileHeader ++ opcodeEOF :: List.replicate 8 0

/-- `BuildSnapshot`, the payload. -/
def buildSnapshot (entries : List StringSnapshotEntry) (now : Int) : Bytes :=
  if entries = [] then emptySnapshot
  else
    fileHeader ++ opcodeSelectDB :: encodeLength 0 ++
      (sortBy StringSnapshotEntry.key entries).flatMap (encodeEntry now) ++
      opcodeEOF :: List.replicate 8 0

end Rdb

end Stash
