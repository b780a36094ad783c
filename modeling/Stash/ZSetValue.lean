import Stash.HashValue
import Stash.RankedList
import Mathlib.Data.List.Lex
import Mathlib.Data.Prod.Lex
import Mathlib.Order.Lex

/-!
# Sorted sets

A sorted set keeps its members in the order of (score, member), compared as numbers and as byte
strings.  It is stored as a small sorted block, or as a map from members to scores together with
an ordered index of the same entries.  The model takes the ordered index of the second encoding
as the ordered list its level-zero chain is.

The meaning of both encodings is the ordered list of entries (`ZSetRep.entries`), and adding
entries acts on that list.

Scores are the doubles that are numbers.  A double is kept as its bits; its order is that of the
magnitude with the sign, so that the two zeros compare equal though they are different scores.
-/

namespace Stash

open GoMap RankedList Function

open List hiding set

/-- A `float64` that is not a NaN. -/
structure Score where
  bits : UInt64
  /-- the magnitude is at most that of the infinities -/
  number : bits.toNat % 2 ^ 63 ≤ 2047 * 2 ^ 52
  deriving DecidableEq

/-- Not an infinity. -/
def Score.Finite (score : Score) : Prop :=
  score.bits.toNat % 2 ^ 63 < 2047 * 2 ^ 52

instance (score : Score) : Decidable score.Finite :=
  inferInstanceAs (Decidable (_ < _))

/-- Where a score stands among the scores: `<` and `==` of the source compare these. -/
def Score.key (score : Score) : Int :=
  if score.bits.toNat < 2 ^ 63 then score.bits.toNat else 2 ^ 63 - (score.bits.toNat : Int)

/-- `ZSetEntry` and `ZSetRangeEntry`. -/
structure ZSetEntry where
  member : Bytes
  score : Score
  deriving DecidableEq

def compactZSetMaxEntries : Nat := 8
def compactZSetMaxMemberLen : Nat := 64

/-- The comparison of Go strings: bytewise, a proper prefix first. -/
def bytesLess : Bytes → Bytes → Bool
  | _, [] => false
  | [], _ :: _ => true
  | x :: xs, y :: ys => x.toNat < y.toNat || (x = y && bytesLess xs ys)

/-- `zsetLess`. -/
def zsetLess (left right : ZSetEntry) : Bool :=
  if left.score.key ≠ right.score.key then left.score.key < right.score.key
  else bytesLess left.member right.member

/-- The rank by which entries are ordered. -/
def ZSetEntry.rank (entry : ZSetEntry) : Int ×ₗ List Nat :=
  toLex (entry.score.key, entry.member.map UInt8.toNat)

theorem map_toNat_injective : Function.Injective fun bytes : Bytes => bytes.map UInt8.toNat :=
  map_injective_iff.mpr fun _ _ h => UInt8.toNat_inj.mp h

theorem bytesLess_iff (x y : Bytes) :
    bytesLess x y = true ↔ x.map UInt8.toNat < y.map UInt8.toNat := by
  induction x generalizing y with
  | nil => cases y <;> simp [bytesLess]
  | cons a x ih =>
    cases y with
    | nil => simp [bytesLess]
    | cons b y =>
      simp only [bytesLess, Bool.or_eq_true, decide_eq_true_eq, Bool.and_eq_true, ih,
        map_cons, cons_lt_cons_iff, UInt8.toNat_inj]

/-- **The comparison of the source is the order of the ranks.** -/
theorem zsetLess_iff (a b : ZSetEntry) : zsetLess a b = true ↔ a.rank < b.rank := by
  rw [ZSetEntry.rank, ZSetEntry.rank, Prod.Lex.toLex_lt_toLex, zsetLess]
  by_cases h : a.score.key = b.score.key
  · simp [h, bytesLess_iff]
  · simp [h]

theorem member_of_rank_eq (a b : ZSetEntry) (h : a.rank = b.rank) : a.member = b.member := by
  have hpair := toLex_inj.mp h
  exact map_toNat_injective (Prod.mk.inj hpair).2

/-- The ordered lists of entries. -/
abbrev ZOrdered (entries : List ZSetEntry) : Prop :=
  Ordered ZSetEntry.member ZSetEntry.rank entries

theorem zordered_nil : ZOrdered [] :=
  ordered_nil

/-- Put an entry at its place. -/
def zsetPut (entries : List ZSetEntry) (entry : ZSetEntry) : List ZSetEntry :=
  put ZSetEntry.member ZSetEntry.rank entries entry

/-- The entry of a member. -/
def zsetFind (entries : List ZSetEntry) (member : Bytes) : Option ZSetEntry :=
  entries.find? fun entry => entry.member = member

/-- The score of a member. -/
def zsetScore (entries : List ZSetEntry) (member : Bytes) : Option Score :=
  (zsetFind entries member).map ZSetEntry.score

/-- Add one entry: a member that has the score already keeps it, bit for bit. -/
def zsetAddEntry (entries : List ZSetEntry) (entry : ZSetEntry) : List ZSetEntry :=
  match zsetScore entries entry.member with
  | some current => if current.key = entry.score.key then entries else zsetPut entries entry
  | none => zsetPut entries entry

/-! ## Ordered entries are a score function -/

theorem zsetScore_eq_none_iff {entries : List ZSetEntry} {member : Bytes} :
    zsetScore entries member = none ↔ ∀ entry ∈ entries, entry.member ≠ member := by
  rw [zsetScore, Option.map_eq_none_iff, zsetFind, find?_eq_none]
  simp

section

variable {entries : List ZSetEntry} (h : ZOrdered entries)
include h

variable (entry : ZSetEntry)

theorem zordered_put : ZOrdered (zsetPut entries entry) :=
  ordered_put member_of_rank_eq h entry

theorem zordered_addEntry : ZOrdered (zsetAddEntry entries entry) := by
  unfold zsetAddEntry
  split
  · split
    · exact h
    · exact zordered_put h entry
  · exact zordered_put h entry

theorem zsetScore_eq_some_iff {member : Bytes} {score : Score} :
    zsetScore entries member = some score ↔ ⟨member, score⟩ ∈ entries := by
  rw [zsetScore, Option.map_eq_some_iff]
  constructor
  · rintro ⟨entry, hfind, rfl⟩
    have hmember : entry.member = member := by simpa using find?_some hfind
    rw [← hmember]
    exact mem_of_find?_eq_some hfind
  · intro hmem
    have hsome : (zsetFind entries member).isSome := by
      rw [zsetFind, find?_isSome]
      exact ⟨_, hmem, by simp⟩
    obtain ⟨entry, hfind⟩ := Option.isSome_iff_exists.mp hsome
    have hmember : entry.member = member := by simpa using find?_some hfind
    have hentry := h.eq_of_name (mem_of_find?_eq_some hfind) hmem hmember
    exact ⟨entry, hfind, by rw [hentry]⟩

/-- Ordered entries with the same scores are the same entries. -/
theorem zordered_ext {entries' : List ZSetEntry} (h' : ZOrdered entries')
    (hscore : zsetScore entries = zsetScore entries') : entries = entries' := by
  refine h.ext h' fun entry => ?_
  rw [← zsetScore_eq_some_iff h, ← zsetScore_eq_some_iff h', hscore]

theorem zsetScore_put :
    zsetScore (zsetPut entries entry) =
      update (zsetScore entries) entry.member (some entry.score) := by
  funext member
  refine Option.ext fun score => ?_
  rw [zsetScore_eq_some_iff (zordered_put h entry), zsetPut, mem_put]
  by_cases hmember : member = entry.member
  · subst hmember
    rw [update_self]
    constructor
    · rintro (heq | ⟨-, hne⟩)
      · rw [← heq]
      · exact absurd rfl hne
    · intro heq
      exact .inl (by rw [← Option.some.inj heq])
  · rw [update_of_ne hmember, zsetScore_eq_some_iff h]
    constructor
    · rintro (heq | ⟨hmem, -⟩)
      · exact absurd (congrArg ZSetEntry.member heq) hmember
      · exact hmem
    · exact fun hmem => .inr ⟨hmem, hmember⟩

end

/-- An entry as a pair of the score function. -/
def ZSetEntry.pair (entry : ZSetEntry) : Bytes × Score :=
  (entry.member, entry.score)

theorem zsetScore_foldl_put (new : List ZSetEntry) {entries : List ZSetEntry}
    (h : ZOrdered entries) :
    ZOrdered (new.foldl zsetPut entries) ∧
      zsetScore (new.foldl zsetPut entries) =
        assign (zsetScore entries) (new.map ZSetEntry.pair) := by
  induction new generalizing entries with
  | nil => exact ⟨h, rfl⟩
  | cons entry new ih =>
    obtain ⟨hordered, hscore⟩ := ih (zordered_put h entry)
    refine ⟨hordered, hscore.trans ?_⟩
    rw [zsetScore_put h]
    rfl

/-! ## The compact encoding -/

/-- `CompactZSet`, with the members of its arena beside their scores. -/
structure CompactZSet where
  entries : List ZSetEntry
  ordered : ZOrdered entries

namespace CompactZSet

def empty : CompactZSet :=
  ⟨[], ordered_nil⟩

/-- `sort`: the comparison is that of `zsetLess`. -/
def sortEntries (entries : List ZSetEntry) : List ZSetEntry :=
  entries.insertionSort fun a b => a.rank ≤ b.rank

/-- Give a member another score, where it stands. -/
def rescoreEntries (entries : List ZSetEntry) (entry : ZSetEntry) : List ZSetEntry :=
  entries.map fun e => if e.member = entry.member then entry else e

/-- The loop of `add` on the entries: a new member is appended before sorting. -/
def addEntries (entries : List ZSetEntry) (entry : ZSetEntry) : List ZSetEntry :=
  match zsetScore entries entry.member with
  | some current =>
    if current.key = entry.score.key then entries else sortEntries (rescoreEntries entries entry)
  | none => sortEntries (entries ++ [entry])

variable {entries : List ZSetEntry}

theorem mem_sortEntries {entry : ZSetEntry} : entry ∈ sortEntries entries ↔ entry ∈ entries :=
  (perm_insertionSort _ entries).mem_iff

theorem members_rescoreEntries (entries : List ZSetEntry) (entry : ZSetEntry) :
    (rescoreEntries entries entry).map ZSetEntry.member = entries.map ZSetEntry.member := by
  rw [rescoreEntries, map_map]
  refine map_congr_left fun e _ => ?_
  simp only [comp]
  split
  · rename_i h
    exact h.symm
  · rfl

theorem mem_rescoreEntries {entry x : ZSetEntry}
    (hmember : ∃ e ∈ entries, e.member = entry.member) :
    x ∈ rescoreEntries entries entry ↔ x = entry ∨ x ∈ entries ∧ x.member ≠ entry.member := by
  rw [rescoreEntries, mem_map]
  constructor
  · rintro ⟨e, he, rfl⟩
    by_cases h : e.member = entry.member
    · exact .inl (if_pos h)
    · exact .inr (by rw [if_neg h]; exact ⟨he, h⟩)
  · rintro (rfl | ⟨hx, hne⟩)
    · obtain ⟨e, he, h⟩ := hmember
      exact ⟨e, he, if_pos h⟩
    · exact ⟨x, hx, if_neg hne⟩

/-- **The compact encoding adds as the ordered list does**: sorting what was appended or rescored
puts the entry at its place. -/
theorem addEntries_eq (h : ZOrdered entries) (entry : ZSetEntry) :
    addEntries entries entry = zsetAddEntry entries entry := by
  unfold addEntries zsetAddEntry
  cases hscore : zsetScore entries entry.member with
  | some current =>
    simp only
    split
    · rfl
    · have hmember : ∃ e ∈ entries, e.member = entry.member :=
        ⟨_, (zsetScore_eq_some_iff h).mp hscore, rfl⟩
      have hnodup : ((rescoreEntries entries entry).map ZSetEntry.member).Nodup := by
        rw [members_rescoreEntries]
        exact h.distinct
      refine (ordered_insertionSort member_of_rank_eq hnodup).ext (zordered_put h entry) fun x => ?_
      rw [zsetPut, mem_put]
      exact mem_sortEntries.trans (mem_rescoreEntries hmember)
  | none =>
    have hne : ∀ e ∈ entries, e.member ≠ entry.member := zsetScore_eq_none_iff.mp hscore
    have hnodup : ((entries ++ [entry]).map ZSetEntry.member).Nodup := by
      rw [map_append, map_singleton]
      refine h.distinct.append (nodup_singleton _) ?_
      rintro m hm hm'
      obtain ⟨e, he, rfl⟩ := mem_map.mp hm
      exact hne e he (mem_singleton.mp hm')
    refine (ordered_insertionSort member_of_rank_eq hnodup).ext (zordered_put h entry) fun x => ?_
    rw [zsetPut, mem_put]
    refine mem_sortEntries.trans ?_
    rw [mem_append, mem_singleton]
    exact ⟨fun hx => hx.elim (fun hx => .inr ⟨hx, hne x hx⟩) .inl,
      fun hx => hx.elim .inr fun hx => .inl hx.1⟩

def len (s : CompactZSet) : Nat :=
  s.entries.length

/-- `add`. -/
def add (s : CompactZSet) (entry : ZSetEntry) : CompactZSet :=
  ⟨addEntries s.entries entry, by
    rw [addEntries_eq s.ordered]
    exact zordered_addEntry s.ordered entry⟩

/-- `score`. -/
def score (s : CompactZSet) (member : Bytes) : Option Score :=
  zsetScore s.entries member

/-- The length of the arena: a member's bytes stay where they were first written. -/
def arenaLen (s : CompactZSet) : Nat :=
  (s.entries.map fun entry => entry.member.length).sum

end CompactZSet

/-! ## The general encoding -/

/-- The level-zero walk of `zsetSkipList.insert`. -/
def orderInsert (entry : ZSetEntry) : List ZSetEntry → List ZSetEntry
  | [] => [entry]
  | x :: xs => if zsetLess x entry then x :: orderInsert entry xs else entry :: x :: xs

/-- The level-zero walk of `zsetSkipList.delete`. -/
def orderDelete (entry : ZSetEntry) : List ZSetEntry → List ZSetEntry
  | [] => []
  | x :: xs =>
    if zsetLess x entry then x :: orderDelete entry xs
    else if x.score.key = entry.score.key ∧ x.member = entry.member then xs
    else x :: xs

theorem orderInsert_eq (entry : ZSetEntry) (entries : List ZSetEntry) :
    orderInsert entry entries = entries.orderedInsert (fun a b => a.rank ≤ b.rank) entry := by
  induction entries with
  | nil => rfl
  | cons x xs ih =>
    rw [orderInsert, orderedInsert_cons, ih]
    by_cases hless : x.rank < entry.rank
    · rw [if_pos ((zsetLess_iff _ _).mpr hless), if_neg (not_le.mpr hless)]
    · rw [if_neg (mt (zsetLess_iff _ _).mp hless), if_pos (not_lt.mp hless)]

/-- Deleting an entry that is there removes its member and nothing else. -/
theorem orderDelete_eq {entries : List ZSetEntry} (h : ZOrdered entries) {entry : ZSetEntry}
    (hmem : entry ∈ entries) :
    orderDelete entry entries = entries.filter fun x => x.member ≠ entry.member := by
  induction entries with
  | nil => cases hmem
  | cons x xs ih =>
    obtain ⟨hx, hsorted⟩ := pairwise_cons.mp h.sorted
    obtain ⟨hxname, hdistinct⟩ := nodup_cons.mp h.distinct
    rw [orderDelete]
    rcases mem_cons.mp hmem with rfl | hxs
    · -- the walk stops at the entry itself; nothing behind it has its member
      have hself : ¬zsetLess entry entry = true := mt (zsetLess_iff _ _).mp (lt_irrefl _)
      rw [if_neg hself, if_pos ⟨rfl, rfl⟩, filter_cons_of_neg (by simp), eq_comm,
        filter_eq_self]
      intro y hy
      simp only [ne_eq, decide_eq_true_eq]
      exact fun hname => hxname (hname ▸ mem_map_of_mem hy)
    · have hne : x.member ≠ entry.member := fun hname =>
        hxname (mem_map.mpr ⟨entry, hxs, hname.symm⟩)
      rw [if_pos ((zsetLess_iff _ _).mpr (hx entry hxs)), ih ⟨hsorted, hdistinct⟩ hxs,
        filter_cons_of_pos (by simpa using hne)]

/-- `SortedSet`: the index and the ordered entries hold the same scores. -/
structure SortedSet where
  index : Map Bytes Score
  order : List ZSetEntry
  ordered : ZOrdered order
  agrees : (fun member => index.lookup member) = zsetScore order

namespace SortedSet

/-- `newSortedSet`. -/
def empty : SortedSet where
  index := ∅
  order := []
  ordered := ordered_nil
  agrees := rfl

def len (s : SortedSet) : Nat :=
  s.index.keys.length

/-- The order after `add`: an entry with another score is deleted first. -/
def addOrder (index : Map Bytes Score) (order : List ZSetEntry) (entry : ZSetEntry) :
    List ZSetEntry :=
  match index.lookup entry.member with
  | some current =>
    if current.key = entry.score.key then order
    else orderInsert entry (orderDelete ⟨entry.member, current⟩ order)
  | none => orderInsert entry order

/-- The index after `add`. -/
def addIndex (index : Map Bytes Score) (entry : ZSetEntry) : Map Bytes Score :=
  match index.lookup entry.member with
  | some current =>
    if current.key = entry.score.key then index else index.insert entry.member entry.score
  | none => index.insert entry.member entry.score

variable (s : SortedSet) (entry : ZSetEntry)

/-- **The general encoding adds as the ordered list does.** -/
theorem addOrder_eq : addOrder s.index s.order entry = zsetAddEntry s.order entry := by
  have hlookup : s.index.lookup entry.member = zsetScore s.order entry.member :=
    congrFun s.agrees entry.member
  unfold addOrder zsetAddEntry
  rw [hlookup]
  cases hscore : zsetScore s.order entry.member with
  | some current =>
    simp only
    split
    · rfl
    · rw [orderInsert_eq, orderDelete_eq s.ordered ((zsetScore_eq_some_iff s.ordered).mp hscore)]
      rfl
  | none =>
    simp only
    have hall : (s.order.filter fun x => x.member ≠ entry.member) = s.order := by
      rw [filter_eq_self]
      intro x hx
      simpa using zsetScore_eq_none_iff.mp hscore x hx
    rw [orderInsert_eq, zsetPut, put, hall]

theorem addIndex_agrees :
    (fun member => (addIndex s.index entry).lookup member) =
      zsetScore (zsetAddEntry s.order entry) := by
  have hlookup : s.index.lookup entry.member = zsetScore s.order entry.member :=
    congrFun s.agrees entry.member
  have hput : (fun member => (s.index.insert entry.member entry.score).lookup member) =
      zsetScore (zsetPut s.order entry) := by
    rw [lookup_insert_eq, s.agrees, zsetScore_put s.ordered]
  unfold addIndex zsetAddEntry
  rw [hlookup]
  cases zsetScore s.order entry.member with
  | some current =>
    simp only
    split
    · exact s.agrees
    · exact hput
  | none => exact hput

/-- `add`. -/
def add (s : SortedSet) (entry : ZSetEntry) : SortedSet where
  index := addIndex s.index entry
  order := addOrder s.index s.order entry
  ordered := by
    rw [addOrder_eq]
    exact zordered_addEntry s.ordered entry
  agrees := by
    rw [addOrder_eq]
    exact addIndex_agrees s entry

/-- `score`. -/
def score (s : SortedSet) (member : Bytes) : Option Score :=
  s.index.lookup member

theorem len_eq : s.len = s.order.length := by
  have hperm : s.index.keys.Perm (s.order.map ZSetEntry.member) := by
    refine (perm_ext_iff_of_nodup s.index.keys_nodup s.ordered.distinct).mpr fun member => ?_
    have hlookup : s.index.lookup member = zsetScore s.order member := congrFun s.agrees member
    rw [← AList.mem_keys, ← AList.lookup_isSome, hlookup, ← not_iff_not,
      Option.not_isSome_iff_eq_none, zsetScore_eq_none_iff]
    simp
  rw [len, hperm.length_eq, length_map]

end SortedSet

/-! ## Both encodings -/

/-- The payload of a sorted set: `ZSet` or `CompactZSet`, as `ZSetEncoding` says. -/
inductive ZSetRep where
  | general (set : SortedSet)
  | compact (set : CompactZSet)

/-- `zsetMapForEntries`: the last score of each member, and whether all members are short. -/
def zsetMapForEntries (entries : List ZSetEntry) : Map Bytes Score × Bool :=
  (entries.foldl (fun members entry => members.insert entry.member entry.score) ∅,
    entries.all fun entry => entry.member.length ≤ compactZSetMaxMemberLen)

/-- The entries of a map of scores, in the order of the iteration. -/
def zsetEntriesOfMap (order : MapOrder Bytes) (members : Map Bytes Score) : List ZSetEntry :=
  (iterate order members).map fun pair => ⟨pair.1, pair.2⟩

/-- `newCompactZSetFromMap`. -/
def newCompactZSetFromMap (order : MapOrder Bytes) (members : Map Bytes Score) : CompactZSet :=
  (zsetEntriesOfMap order members).foldl CompactZSet.add CompactZSet.empty

/-- `newSortedSetFromMap`. -/
def newSortedSetFromMap (order : MapOrder Bytes) (members : Map Bytes Score) : SortedSet :=
  (zsetEntriesOfMap order members).foldl SortedSet.add SortedSet.empty

/-- `compactZSetGeneralSet`. -/
def compactZSetGeneralSet (compact : CompactZSet) : SortedSet :=
  compact.entries.foldl SortedSet.add SortedSet.empty

/-- The loop of `compactZSetCanAdd`. -/
def compactZSetCanAddLoop (set : CompactZSet) : List ZSetEntry → List Bytes → Nat → Bool
  | [], _, _ => true
  | entry :: entries, newMembers, projectedLen =>
    if entry.member.length > compactZSetMaxMemberLen then false
    else if (set.score entry.member).isSome then
      compactZSetCanAddLoop set entries newMembers projectedLen
    else if entry.member ∈ newMembers then
      compactZSetCanAddLoop set entries newMembers projectedLen
    else if projectedLen + 1 > compactZSetMaxEntries then false
    else compactZSetCanAddLoop set entries (entry.member :: newMembers) (projectedLen + 1)

def compactZSetCanAdd (set : CompactZSet) (entries : List ZSetEntry) : Bool :=
  compactZSetCanAddLoop set entries [] set.len

/-- `zsetAddGeneral`: the new set and the number of new members. -/
def zsetAddGeneral (set : SortedSet) (entries : List ZSetEntry) : SortedSet × Nat :=
  entries.foldl
    (fun acc entry =>
      (acc.1.add entry, if (acc.1.score entry.member).isSome then acc.2 else acc.2 + 1))
    (set, 0)

/-- The loop over the entries of `zsetAdd` on a compact set. -/
def compactZSetAddAll (set : CompactZSet) (entries : List ZSetEntry) : CompactZSet × Nat :=
  entries.foldl
    (fun acc entry =>
      (acc.1.add entry, if (acc.1.score entry.member).isSome then acc.2 else acc.2 + 1))
    (set, 0)

/-- `rangeByRank`, the same on both encodings. -/
def rangeByRank (entries : List ZSetEntry) (start stop : Int) : List ZSetEntry :=
  if start < 0 ∨ stop < start ∨ (entries.length : Int) ≤ start then []
  else (entries.drop start.toNat).take (stop - start + 1).toNat

namespace ZSetRep

/-- `newZSetValueForEntries`. -/
def ofEntries (order : MapOrder Bytes) (entries : List ZSetEntry) : ZSetRep :=
  let (members, compactEligible) := zsetMapForEntries entries
  if compactEligible ∧ members.keys.length ≤ compactZSetMaxEntries then
    .compact (newCompactZSetFromMap order members)
  else .general (newSortedSetFromMap order members)

/-- `zsetLen`. -/
def len : ZSetRep → Nat
  | .general set => set.len
  | .compact set => set.len

/-- `zsetScore`. -/
def score : ZSetRep → Bytes → Option Score
  | .general set => set.score
  | .compact set => set.score

/-- The entries in order: what `zsetRangeByRank` and `zsetRangeByScore` walk over. -/
def entries : ZSetRep → List ZSetEntry
  | .general set => set.order
  | .compact set => set.entries

/-- `zsetAdd`: a compact set that cannot take the entries is upgraded first. -/
def add : ZSetRep → List ZSetEntry → ZSetRep × Nat
  | .general set, new =>
    let (set', added) := zsetAddGeneral set new
    (.general set', added)
  | .compact set, new =>
    if compactZSetCanAdd set new then
      let (set', added) := compactZSetAddAll set new
      (.compact set', added)
    else
      let (set', added) := zsetAddGeneral (compactZSetGeneralSet set) new
      (.general set', added)

/-- `cloneZSetValue`: a compact set is copied as it is, an ordered index walked and filled again. -/
def clone : ZSetRep → ZSetRep
  | .general set => .general (set.order.foldl SortedSet.add SortedSet.empty)
  | .compact set => .compact set

/-- The bytes `approximateValueObjectSize` counts for the members. -/
def contentSize : ZSetRep → Nat
  | .general set => (set.index.keys.map List.length).sum
  | .compact set => set.arenaLen

end ZSetRep

/-! ## The meaning of the operations -/

variable (new : List ZSetEntry) (entries : List ZSetEntry)

variable (order : MapOrder Bytes) (rep : ZSetRep) (set : CompactZSet)

theorem entries_foldl_compact :
    (new.foldl CompactZSet.add set).entries = new.foldl zsetAddEntry set.entries := by
  induction new generalizing set with
  | nil => rfl
  | cons entry new ih =>
    rw [foldl_cons, ih]
    exact congrArg (new.foldl zsetAddEntry) (CompactZSet.addEntries_eq set.ordered entry)

theorem order_foldl_sorted (set : SortedSet) :
    (new.foldl SortedSet.add set).order = new.foldl zsetAddEntry set.order := by
  induction new generalizing set with
  | nil => rfl
  | cons entry new ih =>
    rw [foldl_cons, ih]
    exact congrArg (new.foldl zsetAddEntry) (set.addOrder_eq entry)

/-- Entries whose members are new, and distinct, are all put. -/
theorem foldl_addEntry_eq_foldl_put
    (h : ZOrdered entries) (hdistinct : (new.map ZSetEntry.member).Nodup)
    (hnew : ∀ entry ∈ new, zsetScore entries entry.member = none) :
    new.foldl zsetAddEntry entries = new.foldl zsetPut entries := by
  induction new generalizing entries with
  | nil => rfl
  | cons entry new ih =>
    obtain ⟨hentry, hdistinct'⟩ := nodup_cons.mp hdistinct
    have hadd : zsetAddEntry entries entry = zsetPut entries entry := by
      rw [zsetAddEntry, hnew entry mem_cons_self]
    rw [foldl_cons, foldl_cons, hadd]
    refine ih _ (zordered_put h entry) hdistinct' fun other hother => ?_
    have hne : other.member ≠ entry.member := fun hname =>
      hentry (hname ▸ mem_map_of_mem hother)
    rw [zsetScore_put h, update_of_ne hne]
    exact hnew other (mem_cons_of_mem _ hother)

/-- The ordered entries with the last score of each member. -/
def zsetOfEntries (entries : List ZSetEntry) : List ZSetEntry :=
  entries.foldl zsetPut []

theorem lookup_zsetMapForEntries :
    (fun k => (zsetMapForEntries entries).1.lookup k) =
      assign (fun _ => none) (entries.map ZSetEntry.pair) := by
  have h := lookup_foldl_insert (entries.map ZSetEntry.pair) (∅ : Map Bytes Score)
  rw [foldl_map] at h
  exact h

/-- Adding the entries of a map, in whatever order, orders its last scores. -/
theorem foldl_add_ofMap (entries : List ZSetEntry) :
    (zsetEntriesOfMap order (zsetMapForEntries entries).1).foldl zsetAddEntry [] =
      zsetOfEntries entries := by
  have hpairs : (zsetEntriesOfMap order (zsetMapForEntries entries).1).map ZSetEntry.pair =
      iterate order (zsetMapForEntries entries).1 := by
    rw [zsetEntriesOfMap, map_map]
    exact map_id _
  have hmembers : ((zsetEntriesOfMap order (zsetMapForEntries entries).1).map
      ZSetEntry.member).Nodup := by
    have h : ((iterate order (zsetMapForEntries entries).1).map Prod.fst).Nodup := nodup_iterate
    rw [← hpairs, map_map] at h
    exact h
  rw [foldl_addEntry_eq_foldl_put _ _ ordered_nil hmembers fun _ _ => rfl]
  obtain ⟨hordered, hscore⟩ := zsetScore_foldl_put
    (zsetEntriesOfMap order (zsetMapForEntries entries).1) zordered_nil
  obtain ⟨hordered', hscore'⟩ := zsetScore_foldl_put entries zordered_nil
  refine zordered_ext hordered hordered' (hscore.trans (Eq.trans ?_ hscore'.symm))
  rw [hpairs]
  exact (assign_iterate order _).trans (lookup_zsetMapForEntries entries)

/-- **A new sorted set holds the last score of each member, in order**, in either encoding. -/
theorem ZSetRep.entries_ofEntries (entries : List ZSetEntry) :
    (ZSetRep.ofEntries order entries).entries = zsetOfEntries entries := by
  unfold ZSetRep.ofEntries
  simp only
  split
  · exact (entries_foldl_compact _ _).trans (foldl_add_ofMap order entries)
  · exact (order_foldl_sorted _ _).trans (foldl_add_ofMap order entries)

theorem order_zsetAddGeneral (set : SortedSet) (new : List ZSetEntry) :
    (zsetAddGeneral set new).1.order = new.foldl zsetAddEntry set.order := by
  rw [zsetAddGeneral, foldl_fst SortedSet.add]
  exact order_foldl_sorted new set

/-- An upgrade keeps the entries: they are added in order, so each is new. -/
theorem order_compactZSetGeneralSet : (compactZSetGeneralSet set).order = set.entries := by
  rw [compactZSetGeneralSet, order_foldl_sorted]
  change set.entries.foldl zsetAddEntry [] = set.entries
  rw [foldl_addEntry_eq_foldl_put _ _ zordered_nil set.ordered.distinct fun _ _ => rfl]
  obtain ⟨hordered, hscore⟩ := zsetScore_foldl_put set.entries zordered_nil
  have hnodup : ((set.entries.map ZSetEntry.pair).map Prod.fst).Nodup := by
    rw [map_map]
    exact set.ordered.distinct
  refine zordered_ext hordered set.ordered (hscore.trans ?_)
  funext member
  refine Option.ext fun score => ?_
  refine (assign_eq_some_iff hnodup).trans ?_
  rw [zsetScore_eq_some_iff set.ordered, mem_map]
  constructor
  · rintro ⟨entry, hentry, hpair⟩
    obtain ⟨rfl, rfl⟩ := Prod.mk.inj hpair
    exact hentry
  · exact fun hmem => ⟨_, hmem, rfl⟩

/-- **A copy holds the same entries.** -/
theorem ZSetRep.entries_clone : rep.clone.entries = rep.entries := by
  cases rep with
  | general set => exact order_compactZSetGeneralSet ⟨set.order, set.ordered⟩
  | compact set => rfl

/-- **`zsetAdd` adds the entries one after the other**, whether the encoding stays or is
upgraded. -/
theorem ZSetRep.entries_add (new : List ZSetEntry) :
    (rep.add new).1.entries = new.foldl zsetAddEntry rep.entries := by
  cases rep with
  | general set => exact order_zsetAddGeneral set new
  | compact set =>
    unfold ZSetRep.add
    simp only
    split
    · refine Eq.trans ?_ (entries_foldl_compact new set)
      exact congrArg CompactZSet.entries (foldl_fst CompactZSet.add _ new set 0)
    · refine (order_zsetAddGeneral _ new).trans ?_
      rw [order_compactZSetGeneralSet]
      rfl

theorem ZSetRep.ordered_entries : ZOrdered rep.entries := by
  cases rep with
  | general set => exact set.ordered
  | compact set => exact set.ordered

theorem ZSetRep.len_eq : rep.len = rep.entries.length := by
  cases rep with
  | general set => exact set.len_eq
  | compact set => rfl

/-- The scores handed out are those of the entries. -/
theorem ZSetRep.score_eq : rep.score = zsetScore rep.entries := by
  cases rep with
  | general set => exact set.agrees
  | compact set => rfl

/-- The whole range is the sorted set. -/
theorem rangeByRank_all : rangeByRank entries 0 ((entries.length : Int) - 1) = entries := by
  unfold rangeByRank
  split
  · rename_i h
    have : entries.length = 0 := by omega
    rw [length_eq_zero_iff.mp this]
  · rw [Int.toNat_zero, drop_zero, take_of_length_le]
    omega

/-- Ordered entries, added again from nothing, are the same. -/
theorem zsetOfEntries_of_ordered {entries : List ZSetEntry} (h : ZOrdered entries) :
    zsetOfEntries entries = entries := by
  rw [zsetOfEntries, ← foldl_addEntry_eq_foldl_put _ _ zordered_nil h.distinct fun _ _ => rfl]
  exact ((order_foldl_sorted _ _).symm.trans (order_compactZSetGeneralSet ⟨entries, h⟩))

theorem zsetAddEntry_ne_nil (entry : ZSetEntry) : zsetAddEntry entries entry ≠ [] := by
  have hput : zsetPut entries entry ≠ [] := ne_nil_of_mem (mem_put.mpr (.inl rfl))
  unfold zsetAddEntry
  cases hscore : zsetScore entries entry.member with
  | some current =>
    simp only
    split
    · rintro rfl
      cases hscore
    · exact hput
  | none => exact hput

/-- Entries that were added leave something behind. -/
theorem foldl_addEntry_ne_nil {new : List ZSetEntry} (h : new ≠ []) :
    new.foldl zsetAddEntry entries ≠ [] := by
  induction new using reverseRecOn with
  | nil => exact absurd rfl h
  | append_singleton new entry _ =>
    rw [foldl_append]
    exact zsetAddEntry_ne_nil _ entry

theorem zsetOfEntries_ne_nil {entries : List ZSetEntry} (h : entries ≠ []) :
    zsetOfEntries entries ≠ [] := by
  obtain ⟨entry, hentry⟩ := exists_mem_of_ne_nil entries h
  intro hnil
  have hscore := (zsetScore_foldl_put entries zordered_nil).2
  have hsome := isSome_assign_of_mem (zsetScore []) (mem_map_of_mem (f := ZSetEntry.pair) hentry)
  rw [← hscore] at hsome
  change (zsetScore (zsetOfEntries entries) entry.member).isSome at hsome
  rw [hnil] at hsome
  cases hsome

/-! ## Counts -/

theorem length_zsetAddEntry {entries : List ZSetEntry} (h : ZOrdered entries) (entry : ZSetEntry) :
    (zsetAddEntry entries entry).length =
      entries.length + if (zsetScore entries entry.member).isSome then 0 else 1 := by
  have hput : (zsetPut entries entry).length =
      (entries.filter fun x => x.member ≠ entry.member).length + 1 :=
    orderedInsert_length _ _ _
  have hcount := length_filter_ne h.distinct entry.member
  unfold zsetAddEntry
  cases hscore : zsetScore entries entry.member with
  | some current =>
    have hmem : entry.member ∈ entries.map ZSetEntry.member :=
      mem_map.mpr ⟨_, (zsetScore_eq_some_iff h).mp hscore, rfl⟩
    rw [if_pos hmem] at hcount
    simp only [Option.isSome_some, if_true]
    split
    · rfl
    · omega
  | none =>
    have hmem : entry.member ∉ entries.map ZSetEntry.member := by
      intro hmem
      obtain ⟨x, hx, hname⟩ := mem_map.mp hmem
      exact zsetScore_eq_none_iff.mp hscore x hx hname
    rw [if_neg hmem] at hcount
    simp only [Option.isSome_none, Bool.false_eq_true, if_false]
    omega

namespace ZSetRep

theorem len_zsetAddGeneral (set : SortedSet) (new : List ZSetEntry) :
    (zsetAddGeneral set new).1.order.length = set.order.length + (zsetAddGeneral set new).2 := by
  refine foldl_count_new (fun s : SortedSet => s.order.length)
    (fun s (entry : ZSetEntry) => (s.score entry.member).isSome) (fun s entry => ?_) new set 0
  have hscore : s.score entry.member = zsetScore s.order entry.member :=
    congrFun s.agrees entry.member
  rw [hscore]
  change (SortedSet.addOrder s.index s.order entry).length = _
  rw [SortedSet.addOrder_eq, length_zsetAddEntry s.ordered]

theorem len_add (rep : ZSetRep) (new : List ZSetEntry) :
    (rep.add new).1.entries.length = rep.entries.length + (rep.add new).2 := by
  cases rep with
  | general set => exact len_zsetAddGeneral set new
  | compact set =>
    unfold ZSetRep.add
    simp only
    split
    · refine foldl_count_new (fun s : CompactZSet => s.entries.length)
        (fun s (entry : ZSetEntry) => (s.score entry.member).isSome) (fun s entry => ?_) new set 0
      change (CompactZSet.addEntries s.entries entry).length = _
      rw [CompactZSet.addEntries_eq s.ordered, length_zsetAddEntry s.ordered]
      rfl
    · refine (len_zsetAddGeneral _ new).trans ?_
      rw [order_compactZSetGeneralSet]
      rfl

theorem add_count_congr {rep rep' : ZSetRep} (h : rep.entries = rep'.entries)
    (new : List ZSetEntry) : (rep.add new).2 = (rep'.add new).2 := by
  have hafter : (rep.add new).1.entries = (rep'.add new).1.entries := by
    rw [entries_add, entries_add, h]
  have hadd := rep.len_add new
  have hadd' := rep'.len_add new
  rw [hafter, h] at hadd
  omega

end ZSetRep

end Stash
