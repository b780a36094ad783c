import Stash.SetValue
import Stash.ZSetValue
import Stash.StreamValue

/-!
# Stored values

A stored value is a payload of one of six kinds with a deadline and the time of the last access.
Every operation that would leave a collection empty deletes its key instead, so a stored
collection has an element; the value carries that fact.

Two payloads that differ in their encoding only are the same value.  `Logical` is what a client
can tell apart: the bytes of a string, the order of a list, the function a hash is, the
membership of a set, the ordered entries of a sorted set and the entries of a stream.
-/

namespace Stash

open GoMap HashRep

/-- `ValueKind`. -/
inductive Kind where
  | string
  | list
  | zset
  | stream
  | hash
  | set
  deriving DecidableEq, Repr

/-- The payload that `Kind` and the encodings select. -/
inductive Payload where
  | string (data : Bytes)
  | list (items : List Bytes)
  | zset (rep : ZSetRep)
  | stream (value : StreamValue)
  | hash (rep : HashRep)
  | set (rep : SetRep)

namespace Payload

def kind : Payload → Kind
  | string _ => .string
  | list _ => .list
  | zset _ => .zset
  | stream _ => .stream
  | hash _ => .hash
  | set _ => .set

/-- An entry of a stream holds fields and values in turn. -/
def PairedValues (values : List Bytes) : Prop :=
  values ≠ [] ∧ values.length % 2 = 0

instance (values : List Bytes) : Decidable (PairedValues values) :=
  inferInstanceAs (Decidable (_ ∧ _))

/-- What holds of every stored payload: a collection has an element. -/
def Sound : Payload → Prop
  | string _ => True
  | list items => items ≠ []
  | zset rep => rep.entries ≠ []
  | stream value => value.entries ≠ [] ∧ ∀ record ∈ value.entries, PairedValues record.values
  | hash rep => rep.len ≠ 0
  | set rep => rep.len ≠ 0

instance : (payload : Payload) → Decidable payload.Sound
  | string _ => inferInstanceAs (Decidable True)
  | list items => inferInstanceAs (Decidable (items ≠ []))
  | zset rep => inferInstanceAs (Decidable (rep.entries ≠ []))
  | stream _ => inferInstanceAs (Decidable (_ ∧ _))
  | hash rep => inferInstanceAs (Decidable (rep.len ≠ 0))
  | set rep => inferInstanceAs (Decidable (rep.len ≠ 0))

/-! ### Collections that have an element -/

theorem sound_hash_ofPairs (order : MapOrder Bytes) {pairs : List HashFieldValue}
    (h : pairs ≠ []) : (hash (ofPairs order pairs)).Sound := by
  obtain ⟨pair, hpair⟩ := List.exists_mem_of_ne_nil pairs h
  intro hlen
  have hnone := (len_eq_zero_iff _).mp hlen pair.1
  rw [get_ofPairs] at hnone
  have hsome := isSome_assign_of_mem (fun _ => none) hpair
  rw [hnone] at hsome
  cases hsome

theorem sound_hash_set (rep : HashRep) {pairs : List HashFieldValue} (h : pairs ≠ []) :
    (hash (rep.set pairs).1).Sound := by
  obtain ⟨pair, hpair⟩ := List.exists_mem_of_ne_nil pairs h
  intro hlen
  have hnone := (len_eq_zero_iff _).mp hlen pair.1
  rw [get_set] at hnone
  have hsome := isSome_assign_of_mem rep.get hpair
  rw [hnone] at hsome
  cases hsome

theorem sound_set_ofMembers {members : List Bytes} (h : members ≠ []) :
    (set (SetRep.ofMembers members)).Sound := by
  obtain ⟨member, hmember⟩ := List.exists_mem_of_ne_nil members h
  intro hlen
  have hfalse := (SetRep.len_eq_zero_iff _).mp hlen member
  rw [SetRep.contains_ofMembers] at hfalse
  simp [hmember] at hfalse

theorem sound_set_add (rep : SetRep) {members : List Bytes} (h : members ≠ []) :
    (set (rep.add members).1).Sound := by
  obtain ⟨member, hmember⟩ := List.exists_mem_of_ne_nil members h
  intro hlen
  have hfalse := (SetRep.len_eq_zero_iff _).mp hlen member
  rw [SetRep.contains_add] at hfalse
  simp [hmember] at hfalse

theorem sound_zset_ofEntries (order : MapOrder Bytes) {entries : List ZSetEntry}
    (h : entries ≠ []) : (zset (ZSetRep.ofEntries order entries)).Sound := by
  change (ZSetRep.ofEntries order entries).entries ≠ []
  rw [ZSetRep.entries_ofEntries]
  exact zsetOfEntries_ne_nil h

theorem sound_zset_add (rep : ZSetRep) {entries : List ZSetEntry} (h : entries ≠ []) :
    (zset (rep.add entries).1).Sound := by
  change (rep.add entries).1.entries ≠ []
  rw [ZSetRep.entries_add]
  exact foldl_addEntry_ne_nil rep.entries h

end Payload

/-- `ValueObject`: the tagged union, its deadline and its access stamp, in milliseconds. -/
structure ValueObject where
  payload : Payload
  expiresAt : Int
  lastAccessedAt : Int
  sound : payload.Sound

/-- `touch`. -/
def ValueObject.touch (value : ValueObject) (now : Int) : ValueObject :=
  { value with lastAccessedAt := now }

/-- A string value; `newOwnedStringValue` with the given stamp. -/
def ValueObject.ofString (data : Bytes) (expiresAt stamp : Int) : ValueObject :=
  ⟨.string data, expiresAt, stamp, trivial⟩

/-- `isExpired`. -/
def isExpired (expiresAt now : Int) : Bool :=
  0 < expiresAt && expiresAt < now

theorem isExpired_iff {expiresAt now : Int} :
    isExpired expiresAt now = true ↔ 0 < expiresAt ∧ expiresAt < now := by
  simp [isExpired]

/-- What has expired stays expired. -/
theorem isExpired_mono {expiresAt now later : Int} (h : now ≤ later)
    (hexpired : isExpired expiresAt now = true) : isExpired expiresAt later = true := by
  rw [isExpired_iff] at *
  omega

theorem isExpired_zero (now : Int) : isExpired 0 now = false := rfl

/-! ## Sizes -/

/-- `approximateBaseValueObjectSize`. -/
def approximateBaseValueObjectSize (key : Bytes) (expiresAt : Int) : Int :=
  48 + key.length + if 0 < expiresAt then 8 else 0

/-- The bytes of the payload, with the overheads of its entries. -/
def Payload.approximateSize : Payload → Int
  | .string data => data.length
  | .list items => 32 + items.length * 16 + (items.map List.length).sum
  | .hash rep => 32 + rep.len * 24 + rep.contentSize
  | .set (.compact ints) => 32 + ints.len * 8
  | .set (.general members) => 32 + members.keys.length * 16 + (members.keys.map List.length).sum
  | .zset rep => 32 + rep.len * 24 + rep.contentSize
  | .stream value => 32 + value.entries.length * 32 +
      (value.entries.map fun record =>
        record.idText.length + (record.values.map List.length).sum).sum

/-- `approximateValueObjectSize`. -/
def approximateValueObjectSize (key : Bytes) (value : ValueObject) : Int :=
  approximateBaseValueObjectSize key value.expiresAt + value.payload.approximateSize

/-! ## Logical values -/

/-- A value as a client sees it, whatever its encoding. -/
inductive Logical where
  | string (data : Bytes)
  | list (items : List Bytes)
  | zset (entries : List ZSetEntry)
  | stream (entries : List StreamRecord)
  | hash (fields : Bytes → Option Bytes)
  | set (members : Bytes → Bool)

/-- The meaning of a payload. -/
def Payload.logical : Payload → Logical
  | .string data => .string data
  | .list items => .list items
  | .zset rep => .zset rep.entries
  | .stream value => .stream value.entries
  | .hash rep => .hash rep.get
  | .set rep => .set rep.contains

/-- A logical value with its deadline. -/
@[ext] structure Entry where
  value : Logical
  expiresAt : Int

/-- What is stored, as a client sees it. -/
def ValueObject.entry (value : ValueObject) : Entry :=
  ⟨value.payload.logical, value.expiresAt⟩

end Stash
