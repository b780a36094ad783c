import Stash.RespValue
import Stash.GoMap

/-!
# Hashes

A hash is stored in one of two encodings: a general map, or, while it is small, a compact block of
bytes that holds its fields and values one behind the other.  Whatever the encoding, the meaning
of a hash is a partial function from fields to values (`HashRep.get`); the operations are
assignments and removals on that function.

The entries of a compact hash are offsets into the block.  A value that is no longer than the old
one is copied over it, which leaves dead bytes behind it; a longer one makes the block be laid out
anew.  The invariant that carries this is that no two entries overlap (`LaidOut`).
-/

namespace Stash

open GoMap List Function

/-- `HashFieldValue`: a field and its value. -/
abbrev HashFieldValue := Bytes × Bytes

def compactHashMaxEntries : Nat := 8
def compactHashMaxStringSize : Nat := 64

/-! ## Regions of an arena -/

/-- `arena[start : start+length]`. -/
def region (arena : Bytes) (start length : Nat) : Bytes :=
  (arena.drop start).take length

/-- `copy` into the arena. -/
def overwriteAt (arena : Bytes) (start : Nat) (bytes : Bytes) : Bytes :=
  arena.take start ++ (bytes ++ arena.drop (start + bytes.length))

section Regions

variable {arena bytes : Bytes} {start length position : Nat}

theorem length_region (h : start + length ≤ arena.length) : (region arena start length).length = length := by
  rw [region, length_take, length_drop]
  omega

theorem region_append (h : start + length ≤ arena.length) (more : Bytes) :
    region (arena ++ more) start length = region arena start length := by
  have hleft : length ≤ (arena.drop start).length := by
    rw [length_drop]
    omega
  rw [region, drop_append_of_le_length (by omega), take_append_of_le_length hleft, region]

theorem region_right (more : Bytes) : region (arena ++ (bytes ++ more)) arena.length bytes.length = bytes := by
  rw [region, drop_left, take_left]

theorem length_overwriteAt (h : start + bytes.length ≤ arena.length) :
    (overwriteAt arena start bytes).length = arena.length := by
  simp only [overwriteAt, length_append, length_take, length_drop]
  omega

theorem region_overwriteAt_self (h : start ≤ arena.length) :
    region (overwriteAt arena start bytes) start bytes.length = bytes := by
  have hstart : (arena.take start).length = start := length_take_of_le h
  have hright := @region_right (arena.take start) bytes (arena.drop (start + bytes.length))
  rwa [hstart] at hright

/-- A write leaves what lies in front of it. -/
theorem region_overwriteAt_before (h : start + length ≤ position) (hposition : position ≤ arena.length) :
    region (overwriteAt arena position bytes) start length = region arena start length := by
  have hle : start + length ≤ (arena.take position).length := by
    rw [length_take]
    omega
  conv_rhs => rw [← take_append_drop position arena, region_append hle]
  exact region_append hle _

/-- And what lies behind it. -/
theorem region_overwriteAt_after (h : position + bytes.length ≤ start)
    (hposition : position ≤ arena.length) :
    region (overwriteAt arena position bytes) start length = region arena start length := by
  have hdrop : (overwriteAt arena position bytes).drop start = arena.drop start := by
    rw [overwriteAt, ← append_assoc, drop_append, drop_eq_nil_of_le, nil_append, drop_drop]
    · congr 1
      simp only [length_append, length_take]
      omega
    · simp only [length_append, length_take]
      omega
  rw [region, hdrop, region]

end Regions

/-! ## The compact encoding -/

/-- `compactHashEntry`. -/
structure CompactHashEntry where
  fieldStart : Nat
  fieldLen : Nat
  valueStart : Nat
  valueLen : Nat
  deriving DecidableEq, Repr

namespace CompactHashEntry

/-- `CompactHash.field`. -/
def field (arena : Bytes) (entry : CompactHashEntry) : Bytes :=
  region arena entry.fieldStart entry.fieldLen

/-- `CompactHash.value`. -/
def value (arena : Bytes) (entry : CompactHashEntry) : Bytes :=
  region arena entry.valueStart entry.valueLen

/-- `fieldEqual`. -/
def fieldEqual (arena : Bytes) (name : Bytes) (entry : CompactHashEntry) : Bool :=
  entry.fieldLen = name.length && entry.field arena = name

def pair (arena : Bytes) (entry : CompactHashEntry) : HashFieldValue :=
  (entry.field arena, entry.value arena)

/-- The value lies behind the field, within so many bytes. -/
structure Within (size : Nat) (entry : CompactHashEntry) : Prop where
  adjacent : entry.fieldStart + entry.fieldLen = entry.valueStart
  bounded : entry.valueStart + entry.valueLen ≤ size

/-- The regions of the one end where those of the other begin, or before. -/
def Before (entry later : CompactHashEntry) : Prop :=
  entry.valueStart + entry.valueLen ≤ later.fieldStart

variable {arena : Bytes} {entry : CompactHashEntry}

theorem Within.fieldEqual (h : entry.Within arena.length) (name : Bytes) :
    entry.fieldEqual arena name = decide (entry.field arena = name) := by
  have hlength : (entry.field arena).length = entry.fieldLen := by
    refine length_region ?_
    have := h.adjacent
    have := h.bounded
    omega
  unfold CompactHashEntry.fieldEqual
  by_cases hname : entry.field arena = name
  · simp [hname, ← hlength]
  · simp [hname]

theorem Within.pair_append (h : entry.Within arena.length) (more : Bytes) :
    entry.pair (arena ++ more) = entry.pair arena := by
  have := h.adjacent
  have := h.bounded
  exact Prod.ext (region_append (by omega) more) (region_append (by omega) more)

/-- **A value that is written in place does not touch the other entries.** -/
theorem pair_overwriteAt {other : CompactHashEntry} {bytes : Bytes} (h : entry.Within arena.length)
    (hother : other.Within arena.length) (hbytes : bytes.length ≤ entry.valueLen)
    (hapart : other.Before entry ∨ entry.Before other) :
    other.pair (overwriteAt arena entry.valueStart bytes) = other.pair arena := by
  have hposition : entry.valueStart ≤ arena.length := (Nat.le_add_right _ _).trans h.bounded
  have := h.adjacent
  have := hother.adjacent
  unfold Before at hapart
  rcases hapart with hapart | hapart
  · exact Prod.ext (region_overwriteAt_before (by omega) hposition)
      (region_overwriteAt_before (by omega) hposition)
  · exact Prod.ext (region_overwriteAt_after (by omega) hposition)
      (region_overwriteAt_after (by omega) hposition)

end CompactHashEntry

open CompactHashEntry

/-- The regions of the entries lie one behind the other in the arena. -/
structure LaidOut (entries : List CompactHashEntry) (arena : Bytes) : Prop where
  within : ∀ entry ∈ entries, entry.Within arena.length
  apart : entries.Pairwise Before

theorem LaidOut.apart_or {entries : List CompactHashEntry} {arena : Bytes} (h : LaidOut entries arena)
    {entry other : CompactHashEntry} (hentry : entry ∈ entries) (hother : other ∈ entries)
    (hne : entry ≠ other) : entry.Before other ∨ other.Before entry := by
  let Apart : CompactHashEntry → CompactHashEntry → Prop := fun e e' => e.Before e' ∨ e'.Before e
  have : Std.Symm Apart := ⟨fun _ _ => Or.symm⟩
  have hapart : entries.Pairwise Apart := h.apart.imp Or.inl
  exact hapart.forall hentry hother hne

/-- `CompactHash`: no two entries overlap, and no field occurs twice. -/
structure CompactHash where
  entries : List CompactHashEntry
  arena : Bytes
  laidOut : LaidOut entries arena
  distinct : (entries.map (field arena)).Nodup

namespace CompactHash

/-- Entries and their arena. -/
abbrev Block := List CompactHashEntry × Bytes

def Block.pairs (block : Block) : List HashFieldValue :=
  block.1.map (pair block.2)

/-- The end of `set`: a pair that is new goes to the end of the arena. -/
def Block.append (block : Block) (pair : HashFieldValue) : Block :=
  let fieldStart := block.2.length
  let valueStart := (block.2 ++ pair.1).length
  (block.1 ++ [⟨fieldStart, pair.1.length, valueStart, pair.2.length⟩], block.2 ++ (pair.1 ++ pair.2))

/-- `newCompactHash` of pairs with distinct fields (`foldl_set`). -/
def Block.ofPairs (pairs : List HashFieldValue) : Block :=
  pairs.foldl Block.append ([], [])

/-- `rebuild`: the pairs are laid out again, the replacements first, without an entry. -/
def Block.rebuild (block : Block) (skip : CompactHashEntry) (replacements : List HashFieldValue) :
    Block :=
  .ofPairs (replacements ++ (block.1.filter (· ≠ skip)).map (pair block.2))

/-- A value that fits is copied to where the old one lies. -/
def Block.overwrite (block : Block) (entry : CompactHashEntry) (value : Bytes) : Block :=
  (block.1.map fun e => { e with valueLen := if e = entry then value.length else e.valueLen },
    overwriteAt block.2 entry.valueStart value)

/-- `CompactHash.set`. -/
def Block.set (block : Block) (field value : Bytes) : Block :=
  match block.1.find? (fieldEqual block.2 field) with
  | some entry =>
    if value.length ≤ entry.valueLen then block.overwrite entry value
    else block.rebuild entry [(field, value)]
  | none => block.append (field, value)

/-! ### What happens to the pairs -/

section Blocks

variable {block : Block} {entry : CompactHashEntry} {value : Bytes}

theorem laidOut_append (h : LaidOut block.1 block.2) (pair : HashFieldValue) :
    LaidOut (block.append pair).1 (block.append pair).2 where
  within := by
    intro entry hentry
    rcases mem_append.mp hentry with hentry | hentry
    · refine ⟨(h.within entry hentry).adjacent, (h.within entry hentry).bounded.trans ?_⟩
      exact (length_append ▸ Nat.le_add_right _ _)
    · obtain rfl := mem_singleton.mp hentry
      simp only [Block.append, length_append]
      exact ⟨rfl, by simp only; omega⟩
  apart := by
    refine pairwise_append.mpr ⟨h.apart, pairwise_singleton _ _, fun entry hentry e he => ?_⟩
    obtain rfl := mem_singleton.mp he
    exact (h.within entry hentry).bounded

theorem pairs_append (h : LaidOut block.1 block.2) (pair : HashFieldValue) :
    (block.append pair).pairs = block.pairs ++ [pair] := by
  simp only [Block.pairs, Block.append, map_append, map_cons, map_nil]
  congr 1
  · exact map_congr_left fun entry hentry => (h.within entry hentry).pair_append _
  · refine congrArg ([·]) (Prod.ext ?_ ?_)
    · exact region_right pair.2
    · have hvalue := @region_right (block.2 ++ pair.1) pair.2 []
      rwa [append_nil, append_assoc] at hvalue

theorem foldl_append (pairs : List HashFieldValue) (h : LaidOut block.1 block.2) :
    LaidOut (pairs.foldl Block.append block).1 (pairs.foldl Block.append block).2 ∧
      (pairs.foldl Block.append block).pairs = block.pairs ++ pairs := by
  induction pairs generalizing block with
  | nil => exact ⟨h, (append_nil _).symm⟩
  | cons pair pairs ih =>
    obtain ⟨hlaid, hpairs⟩ := ih (laidOut_append h pair)
    refine ⟨hlaid, ?_⟩
    rw [foldl_cons, hpairs, pairs_append h, append_assoc]
    rfl

theorem ofPairs_spec (pairs : List HashFieldValue) :
    LaidOut (Block.ofPairs pairs).1 (Block.ofPairs pairs).2 ∧ (Block.ofPairs pairs).pairs = pairs :=
  foldl_append pairs ⟨fun _ h => absurd h not_mem_nil, Pairwise.nil⟩

theorem laidOut_overwrite (h : LaidOut block.1 block.2) (hentry : entry ∈ block.1)
    (hvalue : value.length ≤ entry.valueLen) :
    LaidOut (block.overwrite entry value).1 (block.overwrite entry value).2 := by
  have hbounded := (h.within entry hentry).bounded
  have hlength : (block.overwrite entry value).2.length = block.2.length :=
    length_overwriteAt (by omega)
  have hfit : ∀ e : CompactHashEntry, (if e = entry then value.length else e.valueLen) ≤ e.valueLen := by
    intro e
    split
    case isTrue he => exact he ▸ hvalue
    case isFalse => exact le_rfl
  constructor
  · rw [hlength]
    intro e' he'
    obtain ⟨e, he, rfl⟩ := mem_map.mp he'
    have hwithin := h.within e he
    exact ⟨hwithin.adjacent, (Nat.add_le_add_left (hfit e) _).trans hwithin.bounded⟩
  · refine pairwise_map.mpr (h.apart.imp fun {e e'} hbefore => ?_)
    exact (Nat.add_le_add_left (hfit e) _).trans hbefore

theorem pairs_overwrite (h : LaidOut block.1 block.2) (hentry : entry ∈ block.1)
    (hvalue : value.length ≤ entry.valueLen) :
    (block.overwrite entry value).pairs =
      block.1.map fun e => if e = entry then (entry.field block.2, value) else e.pair block.2 := by
  have hwithin := h.within entry hentry
  have hadjacent := hwithin.adjacent
  have hposition : entry.valueStart ≤ block.2.length := (Nat.le_add_right _ _).trans hwithin.bounded
  simp only [Block.pairs, Block.overwrite, map_map]
  refine map_congr_left fun e he => ?_
  by_cases heq : e = entry
  · subst heq
    simp only [Function.comp, if_pos]
    exact Prod.ext (region_overwriteAt_before hadjacent.le hposition) (region_overwriteAt_self hposition)
  · simp only [Function.comp, if_neg heq]
    exact pair_overwriteAt hwithin (h.within e he) hvalue (h.apart_or he hentry heq)

theorem find?_fieldEqual_isSome (h : LaidOut block.1 block.2) (field : Bytes) :
    (block.1.find? (fieldEqual block.2 field)).isSome ↔ field ∈ block.pairs.map Prod.fst := by
  rw [List.find?_isSome, Block.pairs, map_map, mem_map]
  refine exists_congr fun entry => and_congr_right fun hentry => ?_
  rw [(h.within entry hentry).fieldEqual, decide_eq_true_eq]
  rfl

theorem set_of_not_mem (h : LaidOut block.1 block.2) {field : Bytes}
    (hnew : field ∉ block.pairs.map Prod.fst) : block.set field value = block.append (field, value) := by
  have hnone : block.1.find? (fieldEqual block.2 field) = none := by
    rw [← Option.not_isSome_iff_eq_none, find?_fieldEqual_isSome h]
    exact hnew
  rw [Block.set, hnone]

/-- `newCompactHash` sets the pairs one by one; where no field occurs twice each is appended. -/
theorem foldl_set {pairs : List HashFieldValue} (h : LaidOut block.1 block.2)
    (hnodup : ((block.pairs ++ pairs).map Prod.fst).Nodup) :
    pairs.foldl (fun b pair => Block.set b pair.1 pair.2) block = pairs.foldl Block.append block := by
  induction pairs generalizing block with
  | nil => rfl
  | cons pair pairs ih =>
    have hnew : pair.1 ∉ block.pairs.map Prod.fst := by
      rw [map_append, map_cons] at hnodup
      exact fun hmem => (disjoint_of_nodup_append hnodup) hmem mem_cons_self
    rw [foldl_cons, foldl_cons, set_of_not_mem h hnew]
    refine ih (laidOut_append h pair) ?_
    rwa [pairs_append h, append_assoc]

end Blocks

/-- What setting a field makes of the pairs, in the three ways of `set`. -/
inductive Assigned (pairs : List HashFieldValue) (field value : Bytes) : List HashFieldValue → Prop
  | appended (h : field ∉ pairs.map Prod.fst) : Assigned pairs field value (pairs ++ [(field, value)])
  | overwritten (h : field ∈ pairs.map Prod.fst) :
    Assigned pairs field value (pairs.map fun p => if p.1 = field then (field, value) else p)
  | rebuilt (h : field ∈ pairs.map Prod.fst) :
    Assigned pairs field value ((field, value) :: pairs.filter fun p => p.1 ≠ field)

namespace Assigned

variable {pairs pairs' : List HashFieldValue} {field value : Bytes} {pair : HashFieldValue}

theorem nodup (h : Assigned pairs field value pairs') (hnodup : (pairs.map Prod.fst).Nodup) :
    (pairs'.map Prod.fst).Nodup := by
  cases h with
  | appended h =>
    rw [map_append]
    exact hnodup.append (nodup_singleton _) (disjoint_singleton.mpr h)
  | overwritten h =>
    have hfields : (pairs.map fun p => if p.1 = field then (field, value) else p).map Prod.fst =
        pairs.map Prod.fst := by
      rw [map_map]
      refine map_congr_left fun p _ => ?_
      by_cases hp : p.1 = field
      · exact (congrArg Prod.fst (if_pos hp)).trans hp.symm
      · exact congrArg Prod.fst (if_neg hp)
    rw [hfields]
    exact hnodup
  | rebuilt h =>
    refine nodup_cons.mpr ⟨?_, hnodup.sublist (filter_sublist.map _)⟩
    intro hmem
    obtain ⟨p, hp, heq⟩ := mem_map.mp hmem
    exact of_decide_eq_true (mem_filter.mp hp).2 heq

theorem mem_iff (h : Assigned pairs field value pairs') :
    pair ∈ pairs' ↔ pair = (field, value) ∨ pair.1 ≠ field ∧ pair ∈ pairs := by
  cases h with
  | appended h =>
    rw [mem_append, mem_singleton, or_comm]
    refine or_congr_right ⟨fun hpair => ⟨fun heq => h (heq ▸ mem_map_of_mem hpair), hpair⟩, And.right⟩
  | overwritten h =>
    rw [mem_map]
    constructor
    · rintro ⟨p, hp, rfl⟩
      by_cases hfield : p.1 = field
      · exact .inl (if_pos hfield)
      · rw [if_neg hfield]
        exact .inr ⟨hfield, hp⟩
    · rintro (rfl | ⟨hne, hp⟩)
      · obtain ⟨p, hp, hfield⟩ := mem_map.mp h
        exact ⟨p, hp, if_pos hfield⟩
      · exact ⟨pair, hp, if_neg hne⟩
  | rebuilt h =>
    rw [mem_cons, mem_filter, decide_eq_true_eq, and_comm]

end Assigned

def empty : CompactHash :=
  ⟨[], [], ⟨fun _ h => absurd h not_mem_nil, Pairwise.nil⟩, nodup_nil⟩

def len (h : CompactHash) : Nat :=
  h.entries.length

/-- `len(h.arena)`: dead bytes behind shortened values count. -/
def arenaLen (h : CompactHash) : Nat :=
  h.arena.length

def get (h : CompactHash) (field : Bytes) : Option Bytes :=
  (h.entries.find? (fieldEqual h.arena field)).map (value h.arena)

/-- `CompactHash.all`. -/
def all (h : CompactHash) : List HashFieldValue :=
  Block.pairs (h.entries, h.arena)

variable {h : CompactHash} {field value : Bytes} {entry : CompactHashEntry} {pair : HashFieldValue}

theorem nodup_all (h : CompactHash) : (h.all.map Prod.fst).Nodup := by
  rw [all, Block.pairs, map_map]
  exact h.distinct

theorem find?_eq_some (hfind : h.entries.find? (fieldEqual h.arena field) = some entry) :
    entry ∈ h.entries ∧ entry.field h.arena = field := by
  have hmem := mem_of_find?_eq_some hfind
  have hfield := List.find?_some hfind
  rw [(h.laidOut.within entry hmem).fieldEqual] at hfield
  exact ⟨hmem, of_decide_eq_true hfield⟩

theorem find?_isSome :
    (h.entries.find? (fieldEqual h.arena field)).isSome ↔ field ∈ h.all.map Prod.fst :=
  @find?_fieldEqual_isSome (h.entries, h.arena) h.laidOut field

theorem eq_iff_field {e : CompactHashEntry} (he : e ∈ h.entries) (hentry : entry ∈ h.entries) :
    e = entry ↔ e.field h.arena = entry.field h.arena :=
  ⟨congrArg _, inj_on_of_nodup_map h.distinct he hentry⟩

/-- To skip an entry is to skip the pairs with its field. -/
theorem pairs_rebuild (hentry : entry ∈ h.entries) (replacements : List HashFieldValue) :
    (Block.rebuild (h.entries, h.arena) entry replacements).pairs =
      replacements ++ h.all.filter fun p => p.1 ≠ entry.field h.arena := by
  rw [Block.rebuild, (ofPairs_spec _).2, all, Block.pairs, filter_map]
  refine congrArg (replacements ++ map _ ·) (filter_congr fun e he => ?_)
  exact decide_eq_decide.mpr (not_congr (eq_iff_field he hentry))

/-- **A field is set as it should be**, whether its value is written in place or the arena is laid
out anew. -/
theorem set_spec (h : CompactHash) (field value : Bytes) :
    LaidOut (Block.set (h.entries, h.arena) field value).1 (Block.set (h.entries, h.arena) field value).2 ∧
      Assigned h.all field value (Block.set (h.entries, h.arena) field value).pairs := by
  by_cases hmem : field ∈ h.all.map Prod.fst
  · obtain ⟨entry, hfind⟩ := Option.isSome_iff_exists.mp (find?_isSome.mpr hmem)
    rw [Block.set, hfind]
    obtain ⟨hentry, hfield⟩ := find?_eq_some hfind
    simp only
    split
    case isTrue hfit =>
      refine ⟨laidOut_overwrite h.laidOut hentry hfit, ?_⟩
      have hpairs : (Block.overwrite (h.entries, h.arena) entry value).pairs =
          h.all.map fun p => if p.1 = field then (field, value) else p := by
        rw [pairs_overwrite h.laidOut hentry hfit, all, Block.pairs, map_map, hfield]
        refine map_congr_left fun e he => ?_
        exact ite_congr (propext ((eq_iff_field he hentry).trans (hfield ▸ Iff.rfl)))
          (fun _ => rfl) fun _ => rfl
      rw [hpairs]
      exact .overwritten hmem
    case isFalse =>
      refine ⟨(ofPairs_spec _).1, ?_⟩
      rw [pairs_rebuild hentry, hfield]
      exact .rebuilt hmem
  · rw [set_of_not_mem h.laidOut hmem, pairs_append h.laidOut]
    exact ⟨laidOut_append h.laidOut _, .appended hmem⟩

/-- Entries that are laid out and hold pairs with distinct fields. -/
def ofBlock (block : Block) (hlaid : LaidOut block.1 block.2) (h : (block.pairs.map Prod.fst).Nodup) :
    CompactHash :=
  ⟨block.1, block.2, hlaid, by rwa [Block.pairs, map_map] at h⟩

/-- `CompactHash.set`. -/
def set (h : CompactHash) (field value : Bytes) : CompactHash :=
  ofBlock (Block.set (h.entries, h.arena) field value) (h.set_spec field value).1
    ((h.set_spec field value).2.nodup h.nodup_all)

/-- `CompactHash.del`. -/
def del (h : CompactHash) (field : Bytes) : CompactHash :=
  match hfind : h.entries.find? (fieldEqual h.arena field) with
  | some entry =>
    ofBlock (Block.rebuild (h.entries, h.arena) entry []) (ofPairs_spec _).1 (by
      rw [pairs_rebuild (find?_eq_some hfind).1, nil_append]
      exact h.nodup_all.sublist (filter_sublist.map _))
  | none => h

/-! ### A compact hash is a partial function -/

theorem all_set (h : CompactHash) (field value : Bytes) :
    Assigned h.all field value (h.set field value).all :=
  (h.set_spec field value).2

theorem get_eq_some_iff : h.get field = some value ↔ (field, value) ∈ h.all := by
  rw [get, Option.map_eq_some_iff]
  constructor
  · rintro ⟨entry, hfind, rfl⟩
    obtain ⟨hentry, rfl⟩ := find?_eq_some hfind
    exact mem_map_of_mem hentry
  · intro hmem
    obtain ⟨found, hfound⟩ := Option.isSome_iff_exists.mp (find?_isSome.mpr (mem_map_of_mem hmem))
    obtain ⟨entry, hentry, hpair⟩ := mem_map.mp hmem
    obtain ⟨rfl, rfl⟩ := Prod.mk.inj hpair
    obtain ⟨hmem', hfield⟩ := find?_eq_some hfound
    have hsame : found = entry := (eq_iff_field hmem' hentry).mpr hfield
    exact ⟨found, hfound, by rw [hsame]⟩

theorem get_isSome_iff : (h.get field).isSome ↔ field ∈ h.all.map Prod.fst := by
  rw [get, Option.isSome_map, find?_isSome]

theorem get_eq_none_iff : h.get field = none ↔ ∀ value, (field, value) ∉ h.all := by
  rw [← Option.not_isSome_iff_eq_none, get_isSome_iff, mem_map]
  constructor
  · exact fun hnone value hmem => hnone ⟨(field, value), hmem, rfl⟩
  · rintro hall ⟨⟨_, value⟩, hmem, rfl⟩
    exact hall value hmem

theorem mem_all_set :
    pair ∈ (h.set field value).all ↔ pair = (field, value) ∨ pair.1 ≠ field ∧ pair ∈ h.all :=
  (h.all_set field value).mem_iff

theorem all_del (h : CompactHash) (field : Bytes) :
    (h.del field).all = h.all.filter fun p => p.1 ≠ field := by
  unfold del
  split
  case h_1 entry hfind =>
    obtain ⟨hentry, rfl⟩ := find?_eq_some hfind
    exact pairs_rebuild hentry []
  case h_2 hfind =>
    have hnone : field ∉ h.all.map Prod.fst := fun hmem => by
      rw [← find?_isSome, hfind] at hmem
      cases hmem
    refine (filter_eq_self.mpr fun p hp => ?_).symm
    rw [decide_eq_true_eq]
    exact fun hfield => hnone (hfield ▸ mem_map_of_mem hp)

/-- **Setting a field of a compact hash is an assignment**, in place or not. -/
theorem get_set (h : CompactHash) (field value : Bytes) :
    (h.set field value).get = update h.get field (some value) := by
  funext k
  refine Option.ext fun v => ?_
  rw [get_eq_some_iff, mem_all_set]
  by_cases hk : k = field
  · subst hk
    rw [update_self]
    simp [eq_comm]
  · rw [update_of_ne hk, get_eq_some_iff]
    simp [hk]

theorem get_del (h : CompactHash) (field : Bytes) :
    (h.del field).get = update h.get field none := by
  funext k
  refine Option.ext fun v => ?_
  rw [get_eq_some_iff, all_del, mem_filter]
  by_cases hk : k = field
  · subst hk
    simp
  · rw [update_of_ne hk, get_eq_some_iff]
    simp [hk]

theorem get_empty : empty.get = fun _ => none := rfl

theorem length_all (h : CompactHash) : h.all.length = h.len :=
  length_map _

theorem len_eq_zero_iff (h : CompactHash) : h.len = 0 ↔ ∀ field, h.get field = none := by
  rw [← length_all, length_eq_zero_iff, eq_nil_iff_forall_not_mem, Prod.forall]
  exact forall_congr' fun field => get_eq_none_iff.symm

end CompactHash

/-! ## Both encodings -/

/-- The payload of a hash value: `Hash` or `CompactHash`, as `HashEncoding` says. -/
inductive HashRep where
  | general (fields : Map Bytes Bytes)
  | compact (hash : CompactHash)

/-- `hashSetGeneral`: the new map and the number of new fields. -/
def hashSetGeneral (hash : Map Bytes Bytes) (pairs : List HashFieldValue) :
    Map Bytes Bytes × Nat :=
  pairs.foldl
    (fun acc pair =>
      (acc.1.insert pair.1 pair.2, if (acc.1.lookup pair.1).isSome then acc.2 else acc.2 + 1))
    (hash, 0)

/-- The loop over the pairs of `hashSet` on a compact hash. -/
def compactHashSetAll (hash : CompactHash) (pairs : List HashFieldValue) : CompactHash × Nat :=
  pairs.foldl
    (fun acc pair =>
      (acc.1.set pair.1 pair.2, if (acc.1.get pair.1).isSome then acc.2 else acc.2 + 1))
    (hash, 0)

/-- The loop of `compactHashCanSet`. -/
def compactHashCanSetLoop (hash : CompactHash) :
    List HashFieldValue → List Bytes → Nat → Bool
  | [], _, _ => true
  | (field, value) :: pairs, newFields, projectedLen =>
    if field.length > compactHashMaxStringSize ∨ value.length > compactHashMaxStringSize then false
    else if (hash.get field).isSome then compactHashCanSetLoop hash pairs newFields projectedLen
    else if field ∈ newFields then compactHashCanSetLoop hash pairs newFields projectedLen
    else if projectedLen + 1 > compactHashMaxEntries then false
    else compactHashCanSetLoop hash pairs (field :: newFields) (projectedLen + 1)

def compactHashCanSet (hash : CompactHash) (pairs : List HashFieldValue) : Bool :=
  compactHashCanSetLoop hash pairs [] hash.len

/-- `compactHashGeneralMap`. -/
def compactHashGeneralMap (hash : CompactHash) : Map Bytes Bytes :=
  (hashSetGeneral ∅ hash.all).1

/-- `hashMapForPairs`. -/
def hashMapForPairs (pairs : List HashFieldValue) : Map Bytes Bytes × Bool :=
  ((hashSetGeneral ∅ pairs).1,
    pairs.all fun pair =>
      pair.1.length ≤ compactHashMaxStringSize && pair.2.length ≤ compactHashMaxStringSize)

/-- `newCompactHashFromMap`: the entries stand in the order of the iteration over the map. -/
def newCompactHashFromMap (order : MapOrder Bytes) (fields : Map Bytes Bytes) : CompactHash :=
  (compactHashSetAll CompactHash.empty (iterate order fields)).1

namespace HashRep

/-- `newHashValueForPairs`. -/
def ofPairs (order : MapOrder Bytes) (pairs : List HashFieldValue) : HashRep :=
  let (fields, compactEligible) := hashMapForPairs pairs
  if compactEligible ∧ fields.keys.length ≤ compactHashMaxEntries then
    .compact (newCompactHashFromMap order fields)
  else .general fields

/-- `hashLen`. -/
def len : HashRep → Nat
  | .general fields => fields.keys.length
  | .compact hash => hash.len

/-- `hashGet`. -/
def get : HashRep → Bytes → Option Bytes
  | .general fields => fun field => fields.lookup field
  | .compact hash => hash.get

/-- `hashSet`: a compact hash that cannot take the pairs is upgraded first. -/
def set : HashRep → List HashFieldValue → HashRep × Nat
  | .general fields, pairs =>
    let (fields', added) := hashSetGeneral fields pairs
    (.general fields', added)
  | .compact hash, pairs =>
    if compactHashCanSet hash pairs then
      let (hash', added) := compactHashSetAll hash pairs
      (.compact hash', added)
    else
      let (fields', added) := hashSetGeneral (compactHashGeneralMap hash) pairs
      (.general fields', added)

/-- `hashDel`: the fields are removed one after the other and those that were there counted. -/
def del : HashRep → List Bytes → HashRep × Nat
  | .general fields, names =>
    let (fields', removed) := names.foldl
      (fun acc field =>
        (acc.1.erase field, if (acc.1.lookup field).isSome then acc.2 + 1 else acc.2))
      (fields, 0)
    (.general fields', removed)
  | .compact hash, names =>
    let (hash', removed) := names.foldl
      (fun acc field => (acc.1.del field, if (acc.1.get field).isSome then acc.2 + 1 else acc.2))
      (hash, 0)
    (.compact hash', removed)

/-- `cloneHashValue`: the arena of a compact hash is copied as it is, a map is filled again. -/
def clone (order : MapOrder Bytes) : HashRep → HashRep
  | .general fields => .general (rebuild order fields)
  | .compact hash => .compact hash

/-- `hashEntries`. -/
def entries (order : MapOrder Bytes) : HashRep → List HashFieldValue
  | .general fields => iterate order fields
  | .compact hash => hash.all

/-- The bytes `approximateValueObjectSize` counts for the fields and values. -/
def contentSize : HashRep → Nat
  | .general fields => (fields.entries.map fun entry => entry.1.length + entry.2.length).sum
  | .compact hash => hash.arenaLen

end HashRep

/-! ## The meaning of the operations -/

theorem foldl_fst {σ ι κ : Type} (step : σ → ι → σ) (count : σ × κ → ι → κ) (xs : List ι) (s : σ)
    (n : κ) : (xs.foldl (fun acc x => (step acc.1 x, count acc x)) (s, n)).1 = xs.foldl step s := by
  induction xs generalizing s n with
  | nil => rfl
  | cons x xs ih => exact ih _ _

theorem lookup_hashSetGeneral (hash : Map Bytes Bytes) (pairs : List HashFieldValue) :
    (fun k => (hashSetGeneral hash pairs).1.lookup k) = assign (fun k => hash.lookup k) pairs := by
  rw [hashSetGeneral, foldl_fst fun (m : Map Bytes Bytes) (pair : HashFieldValue) => m.insert pair.1 pair.2]
  exact lookup_foldl_insert pairs hash

variable (hash : CompactHash)

theorem get_compactHashSetAll (pairs : List HashFieldValue) :
    (compactHashSetAll hash pairs).1.get = assign hash.get pairs := by
  rw [compactHashSetAll, foldl_fst (fun h (pair : HashFieldValue) => CompactHash.set h pair.1 pair.2)]
  induction pairs generalizing hash with
  | nil => rfl
  | cons pair pairs ih =>
    rw [foldl_cons, ih, CompactHash.get_set]
    rfl

theorem assign_all : assign (fun _ => none) hash.all = hash.get := by
  funext field
  refine Option.ext fun value => ?_
  rw [assign_eq_some_iff hash.nodup_all, CompactHash.get_eq_some_iff]

theorem lookup_compactHashGeneralMap :
    (fun k => (compactHashGeneralMap hash).lookup k) = hash.get := by
  rw [compactHashGeneralMap, lookup_hashSetGeneral, ← assign_all]
  rfl

variable (order : MapOrder Bytes) (rep : HashRep)

theorem get_newCompactHashFromMap (fields : Map Bytes Bytes) :
    (newCompactHashFromMap order fields).get = fun k => fields.lookup k := by
  rw [newCompactHashFromMap, get_compactHashSetAll, CompactHash.get_empty, assign_iterate]

variable (pairs : List HashFieldValue) (h : CompactHash)

/-- **A new hash holds its pairs**, the last one for each field, in either encoding. -/
theorem HashRep.get_ofPairs : (HashRep.ofPairs order pairs).get = assign (fun _ => none) pairs := by
  have hfields : (fun k => (hashMapForPairs pairs).1.lookup k) = assign (fun _ => none) pairs := by
    rw [hashMapForPairs, lookup_hashSetGeneral]
    rfl
  unfold HashRep.ofPairs
  simp only
  split
  · exact (get_newCompactHashFromMap order _).trans hfields
  · exact hfields

/-- **`hashSet` assigns**, whether the encoding stays or is upgraded. -/
theorem HashRep.get_set : (rep.set pairs).1.get = assign rep.get pairs := by
  cases rep with
  | general fields => exact lookup_hashSetGeneral fields pairs
  | compact hash =>
    unfold HashRep.set
    simp only
    split
    · exact get_compactHashSetAll hash pairs
    · exact (lookup_hashSetGeneral _ pairs).trans (by rw [lookup_compactHashGeneralMap]; rfl)

/-- **A copy holds what the hash holds.** -/
theorem HashRep.get_clone : (rep.clone order).get = rep.get := by
  cases rep with
  | general fields => exact lookup_rebuild order fields
  | compact hash => rfl

/-- **`hashDel` removes.** -/
theorem HashRep.get_del (names : List Bytes) : (rep.del names).1.get = unassign rep.get names := by
  cases rep with
  | general fields =>
    simp only [HashRep.del, HashRep.get]
    rw [foldl_fst (fun (m : Map Bytes Bytes) field => m.erase field)]
    exact lookup_foldl_erase names fields
  | compact hash =>
    simp only [HashRep.del, HashRep.get]
    rw [foldl_fst CompactHash.del]
    induction names generalizing hash with
    | nil => rfl
    | cons name names ih =>
      rw [foldl_cons, ih, CompactHash.get_del]
      rfl

theorem HashRep.len_eq_zero_iff : rep.len = 0 ↔ ∀ field, rep.get field = none := by
  cases rep with
  | general fields => exact length_eq_zero_iff.trans keys_eq_nil_iff
  | compact hash => exact hash.len_eq_zero_iff

/-- **The entries handed out are the hash**, in whatever order. -/
theorem HashRep.assign_entries : assign (fun _ => none) (rep.entries order) = rep.get := by
  cases rep with
  | general fields => exact assign_iterate order fields
  | compact hash => exact assign_all hash

theorem HashRep.nodup_entries : ((rep.entries order).map Prod.fst).Nodup := by
  cases rep with
  | general fields => exact nodup_iterate
  | compact hash => exact hash.nodup_all

/-! ## Counts

The number of fields depends on the function only, and so do the numbers of fields that an
operation adds or removes. -/

theorem length_filter_ne {ε : Type} {name : ε → Bytes} {l : List ε} (h : (l.map name).Nodup)
    (field : Bytes) :
    (l.filter fun e => name e ≠ field).length + (if field ∈ l.map name then 1 else 0) =
      l.length := by
  have hfilter : (l.filter fun e => name e ≠ field).length =
      ((l.map name).filter (· ≠ field)).length := by
    rw [filter_map, length_map]
    rfl
  have herase : (l.map name).erase field = (l.map name).filter (· ≠ field) := by
    rw [List.Nodup.erase_eq_filter h field]
    exact filter_congr fun x _ => by rw [Bool.eq_iff_iff, bne_iff_ne, decide_eq_true_eq]
  rw [hfilter, ← herase, ← length_map name]
  by_cases hmem : field ∈ l.map name
  · have hpos := length_pos_of_mem hmem
    rw [if_pos hmem, length_erase_of_mem hmem]
    omega
  · rw [if_neg hmem, erase_of_not_mem hmem]
    rfl

theorem CompactHash.Assigned.length_eq {pairs pairs' : List HashFieldValue} {field value : Bytes}
    (h : Assigned pairs field value pairs') (hnodup : (pairs.map Prod.fst).Nodup) :
    pairs'.length = pairs.length + if field ∈ pairs.map Prod.fst then 0 else 1 := by
  have hcount := length_filter_ne hnodup field
  cases h with
  | appended hnew => rw [length_append, if_neg hnew, length_singleton]
  | overwritten hmem => rw [length_map, if_pos hmem, Nat.add_zero]
  | rebuilt hmem =>
    rw [if_pos hmem] at hcount ⊢
    rw [length_cons, hcount, Nat.add_zero]

theorem CompactHash.len_set (field value : Bytes) :
    (h.set field value).len = h.len + if (h.get field).isSome then 0 else 1 := by
  rw [← length_all, ← length_all, (h.all_set field value).length_eq h.nodup_all,
    if_congr get_isSome_iff rfl rfl]

theorem CompactHash.len_del (field : Bytes) :
    (h.del field).len + (if (h.get field).isSome then 1 else 0) = h.len := by
  rw [← length_all, ← length_all, all_del, if_congr get_isSome_iff rfl rfl]
  exact length_filter_ne h.nodup_all field

namespace HashRep

theorem length_entries (order : MapOrder Bytes) (rep : HashRep) :
    (rep.entries order).length = rep.len := by
  cases rep with
  | general fields =>
    have h := congrArg List.length (@iterate_fst _ _ _ order fields)
    rw [length_map, (order.perm _).length_eq] at h
    exact h
  | compact hash => exact length_map _

variable {rep rep' : HashRep}

/-- **Two encodings of one function hand out the same fields and values.** -/
theorem perm_entries (h : rep.get = rep'.get) (order order' : MapOrder Bytes) :
    (rep.entries order).Perm (rep'.entries order') := by
  refine perm_of_assign_eq (rep.nodup_entries order) (rep'.nodup_entries order') ?_
  rw [assign_entries, assign_entries, h]

theorem len_congr {rep rep' : HashRep} (h : rep.get = rep'.get) : rep.len = rep'.len := by
  rw [← rep.length_entries (MapOrder.id Bytes), ← rep'.length_entries (MapOrder.id Bytes)]
  exact (perm_entries h _ _).length_eq

theorem len_hashSetGeneral (fields : Map Bytes Bytes) (pairs : List HashFieldValue) :
    (hashSetGeneral fields pairs).1.keys.length =
      fields.keys.length + (hashSetGeneral fields pairs).2 :=
  foldl_count_new (fun m : Map Bytes Bytes => m.keys.length)
    (fun m (pair : HashFieldValue) => (m.lookup pair.1).isSome)
    (fun m pair => length_keys_insert m pair.1 pair.2) pairs fields 0

theorem len_set (rep : HashRep) (pairs : List HashFieldValue) :
    (rep.set pairs).1.len = rep.len + (rep.set pairs).2 := by
  cases rep with
  | general fields => exact len_hashSetGeneral fields pairs
  | compact hash =>
    unfold HashRep.set
    simp only
    split
    · exact foldl_count_new CompactHash.len
        (fun h (pair : HashFieldValue) => (h.get pair.1).isSome)
        (fun h pair => h.len_set pair.1 pair.2) pairs hash 0
    · have hupgrade : (HashRep.general (compactHashGeneralMap hash)).len = hash.len :=
        @len_congr (.general _) (.compact hash) (lookup_compactHashGeneralMap hash)
      refine (len_hashSetGeneral _ pairs).trans ?_
      exact congrArg (· + _) hupgrade

theorem len_del (rep : HashRep) (names : List Bytes) :
    (rep.del names).1.len + (rep.del names).2 = rep.len := by
  cases rep with
  | general fields =>
    exact foldl_count_gone (fun m : Map Bytes Bytes => m.keys.length)
      (fun m field => (m.lookup field).isSome) length_keys_erase names fields 0
  | compact hash =>
    exact foldl_count_gone CompactHash.len (fun h field => (h.get field).isSome)
      CompactHash.len_del names hash 0

theorem set_count_congr (h : rep.get = rep'.get)
    (pairs : List HashFieldValue) : (rep.set pairs).2 = (rep'.set pairs).2 :=
  added_congr (rep.len_set pairs) (rep'.len_set pairs) (len_congr h)
    (len_congr (by rw [get_set, get_set, h]))

theorem del_count_congr (h : rep.get = rep'.get) (names : List Bytes) :
    (rep.del names).2 = (rep'.del names).2 :=
  added_congr (rep.len_del names).symm (rep'.len_del names).symm
    (len_congr (by rw [get_del, get_del, h])) (len_congr h)

end HashRep

end Stash
