import Stash.HashValue
import Mathlib.Data.List.Sort

/-!
# Sets

A set of byte strings is stored as a general map or, while all its members are canonical decimal
integers and there are few of them, as a sorted slice of integers.  Its meaning is the membership
test (`SetRep.contains`), on which adding and removing members act as union and difference,
whatever the encoding and however it changes on the way.
-/

namespace Stash

open DecimalText GoMap

open List hiding set

def intSetMaxEntries : Nat := 512

/-- `IntSet`: the values are in order, without repetition, and have 64 bits. -/
structure IntSet where
  values : List Int
  sorted : values.Pairwise (· < ·)
  bounded : ∀ value ∈ values, InInt64 value

/-- `parseIntSetMember`: only the canonical form of an integer counts as one. -/
def parseIntSetMember (member : Bytes) : Option Int :=
  (readInt64 member).filter fun value => formatInt value = member

def parseIntSetMembers : List Bytes → Option (List Int)
  | [] => some []
  | member :: members =>
    match parseIntSetMember member, parseIntSetMembers members with
    | some value, some values => some (value :: values)
    | _, _ => none

/-- `compactUniqueInts`: drop repetitions from a sorted slice. -/
def compactUniqueInts : List Int → List Int
  | [] => []
  | [value] => [value]
  | value :: next :: rest =>
    if value = next then compactUniqueInts (next :: rest)
    else value :: compactUniqueInts (next :: rest)

/-- The merge of `addMany`, with the number of values that are new. -/
def mergeUnique : List Int → List Int → List Int × Nat
  | [], ys => (ys, ys.length)
  | xs, [] => (xs, 0)
  | x :: xs, y :: ys =>
    if x < y then
      let (merged, added) := mergeUnique xs (y :: ys)
      (x :: merged, added)
    else if y < x then
      let (merged, added) := mergeUnique (x :: xs) ys
      (y :: merged, added + 1)
    else
      let (merged, added) := mergeUnique xs ys
      (x :: merged, added)
termination_by xs ys => xs.length + ys.length

/-! ## Canonical integers -/

variable {value : Int} {values : List Int}

theorem parseIntSetMember_eq_some_iff {member : Bytes} :
    parseIntSetMember member = some value ↔ member = formatInt value ∧ InInt64 value := by
  rw [parseIntSetMember, Option.filter_eq_some_iff, decide_eq_true_eq, readInt64_eq_some_iff]
  constructor
  · rintro ⟨⟨-, hrange⟩, rfl⟩
    exact ⟨rfl, hrange⟩
  · rintro ⟨rfl, hrange⟩
    exact ⟨⟨readInt_formatInt value, hrange⟩, rfl⟩

theorem parseIntSetMembers_eq_some_iff {members : List Bytes} :
    parseIntSetMembers members = some values ↔
      members = values.map formatInt ∧ ∀ value ∈ values, InInt64 value := by
  induction members generalizing values with
  | nil => cases values <;> simp [parseIntSetMembers]
  | cons member members ih =>
    unfold parseIntSetMembers
    cases values with
    | nil =>
      split <;> simp
    | cons value values =>
      constructor
      · intro h
        split at h
        · rename_i v vs hv hvs
          simp only [Option.some.injEq, cons.injEq] at h
          obtain ⟨rfl, rfl⟩ := h
          obtain ⟨rfl, hrange⟩ := parseIntSetMember_eq_some_iff.mp hv
          obtain ⟨rfl, hall⟩ := ih.mp hvs
          exact ⟨rfl, forall_mem_cons.mpr ⟨hrange, hall⟩⟩
        · cases h
      · rintro ⟨hmembers, hall⟩
        obtain ⟨rfl, rfl⟩ := cons.inj hmembers
        obtain ⟨hrange, hall⟩ := forall_mem_cons.mp hall
        rw [parseIntSetMember_eq_some_iff.mpr ⟨rfl, hrange⟩, ih.mpr ⟨rfl, hall⟩]

/-! ## Sorted slices -/

theorem mem_compactUniqueInts : value ∈ compactUniqueInts values ↔ value ∈ values := by
  fun_induction compactUniqueInts values with
  | case1 => rfl
  | case2 => rfl
  | case3 next rest ih => rw [ih]; simp
  | case4 v next rest hne ih => simp only [mem_cons] at ih ⊢; rw [ih]

theorem sorted_compactUniqueInts (h : values.Pairwise (· ≤ ·)) :
    (compactUniqueInts values).Pairwise (· < ·) := by
  fun_induction compactUniqueInts values with
  | case1 => exact List.Pairwise.nil
  | case2 => exact pairwise_singleton _ _
  | case3 next rest ih => exact ih (pairwise_cons.mp h).2
  | case4 v next rest hne ih =>
    obtain ⟨hv, hrest⟩ := pairwise_cons.mp h
    refine pairwise_cons.mpr ⟨fun w hw => ?_, ih hrest⟩
    -- everything behind is at least `next`, which is above `v`
    rw [mem_compactUniqueInts] at hw
    have hnext : v ≤ next := hv next mem_cons_self
    rcases mem_cons.mp hw with rfl | hw
    · omega
    · have := (pairwise_cons.mp hrest).1 w hw
      omega

theorem mem_mergeUnique {xs ys : List Int} :
    value ∈ (mergeUnique xs ys).1 ↔ value ∈ xs ∨ value ∈ ys := by
  fun_induction mergeUnique xs ys with
  | case1 ys => simp
  | case2 xs => simp
  | case3 x xs y ys hlt merged added heq ih =>
    simp only [heq] at ih
    simp only [mem_cons, ih]
    tauto
  | case4 x xs y ys hle hlt merged added heq ih =>
    simp only [heq] at ih
    simp only [mem_cons, ih]
    tauto
  | case5 x xs y ys hle hge merged added heq ih =>
    simp only [heq] at ih
    obtain rfl : x = y := by omega
    simp only [mem_cons, ih]
    tauto

theorem sorted_mergeUnique {xs ys : List Int} (hx : xs.Pairwise (· < ·))
    (hy : ys.Pairwise (· < ·)) : (mergeUnique xs ys).1.Pairwise (· < ·) := by
  fun_induction mergeUnique xs ys with
  | case1 ys => exact hy
  | case2 xs => exact hx
  | case3 x xs y ys hlt merged added heq ih =>
    obtain ⟨hx₁, hx₂⟩ := pairwise_cons.mp hx
    have hmem : ∀ w ∈ merged, w ∈ xs ∨ w ∈ y :: ys := fun w hw => by
      rw [← mem_mergeUnique, heq]; exact hw
    simp only [heq] at ih
    refine pairwise_cons.mpr ⟨fun w hw => ?_, ih hx₂ hy⟩
    rcases hmem w hw with hw | hw
    · exact hx₁ w hw
    · rcases mem_cons.mp hw with rfl | hw
      · exact hlt
      · exact hlt.trans ((pairwise_cons.mp hy).1 w hw)
  | case4 x xs y ys hle hlt merged added heq ih =>
    obtain ⟨hy₁, hy₂⟩ := pairwise_cons.mp hy
    have hmem : ∀ w ∈ merged, w ∈ x :: xs ∨ w ∈ ys := fun w hw => by
      rw [← mem_mergeUnique, heq]; exact hw
    simp only [heq] at ih
    refine pairwise_cons.mpr ⟨fun w hw => ?_, ih hx hy₂⟩
    rcases hmem w hw with hw | hw
    · rcases mem_cons.mp hw with rfl | hw
      · exact hlt
      · exact hlt.trans ((pairwise_cons.mp hx).1 w hw)
    · exact hy₁ w hw
  | case5 x xs y ys hle hge merged added heq ih =>
    obtain ⟨hx₁, hx₂⟩ := pairwise_cons.mp hx
    obtain ⟨hy₁, hy₂⟩ := pairwise_cons.mp hy
    obtain rfl : x = y := by omega
    have hmem : ∀ w ∈ merged, w ∈ xs ∨ w ∈ ys := fun w hw => by
      rw [← mem_mergeUnique, heq]; exact hw
    simp only [heq] at ih
    refine pairwise_cons.mpr ⟨fun w hw => ?_, ih hx₂ hy₂⟩
    rcases hmem w hw with hw | hw
    · exact hx₁ w hw
    · exact hy₁ w hw

/-! ## Integer sets -/

namespace IntSet

/-- The integers of the parsed members, in order and without repetition. -/
def ofValues (values : List Int) (hbounded : ∀ value ∈ values, InInt64 value) : IntSet where
  values := compactUniqueInts (values.insertionSort (· ≤ ·))
  sorted := sorted_compactUniqueInts (pairwise_insertionSort (· ≤ ·) values)
  bounded := fun value hvalue => hbounded value
    (((perm_insertionSort (· ≤ ·) values).mem_iff).mp (mem_compactUniqueInts.mp hvalue))

/-- `newIntSet`. -/
def ofMembers (members : List Bytes) : Option IntSet :=
  match h : parseIntSetMembers members with
  | some values => some (ofValues values (parseIntSetMembers_eq_some_iff.mp h).2)
  | none => none

def len (s : IntSet) : Nat :=
  s.values.length

def union (s t : IntSet) : IntSet where
  values := (mergeUnique s.values t.values).1
  sorted := sorted_mergeUnique s.sorted t.sorted
  bounded := fun value hvalue =>
    (mem_mergeUnique.mp hvalue).elim (s.bounded value) (t.bounded value)

/-- `addMany`: refused unless every member is an integer. -/
def addMany (s : IntSet) (members : List Bytes) : Option (IntSet × Nat) :=
  (ofMembers members).map fun t => (s.union t, (mergeUnique s.values t.values).2)

/-- `contains`: the binary search finds a value exactly when it is there. -/
def contains (s : IntSet) (member : Bytes) : Bool :=
  match parseIntSetMember member with
  | some value => decide (value ∈ s.values)
  | none => false

/-- `remove`. -/
def remove (s : IntSet) (member : Bytes) : IntSet :=
  match parseIntSetMember member with
  | some value =>
    ⟨s.values.filter (· ≠ value), s.sorted.filter _,
      fun v hv => s.bounded v (mem_of_mem_filter hv)⟩
  | none => s

/-- `members`. -/
def members (s : IntSet) : List Bytes :=
  s.values.map formatInt

variable {s : IntSet} {member : Bytes}

theorem contains_iff : s.contains member = true ↔ member ∈ s.members := by
  rw [contains, members, mem_map]
  constructor
  · intro h
    split at h
    · rename_i value hvalue
      exact ⟨value, by simpa using h, (parseIntSetMember_eq_some_iff.mp hvalue).1.symm⟩
    · cases h
  · rintro ⟨value, hvalue, rfl⟩
    rw [parseIntSetMember_eq_some_iff.mpr ⟨rfl, s.bounded value hvalue⟩]
    simpa using hvalue

theorem members_ofMembers {members : List Bytes} (h : ofMembers members = some s)
    (member : Bytes) : member ∈ s.members ↔ member ∈ members := by
  unfold ofMembers at h
  split at h
  · rename_i values hvalues
    obtain ⟨rfl, -⟩ := parseIntSetMembers_eq_some_iff.mp hvalues
    simp only [Option.some.injEq] at h
    subst h
    simp only [IntSet.members, ofValues, mem_map, mem_compactUniqueInts,
      (perm_insertionSort (· ≤ ·) values).mem_iff]
  · cases h

theorem mem_members_union {t : IntSet} :
    member ∈ (s.union t).members ↔ member ∈ s.members ∨ member ∈ t.members := by
  simp only [members, union, mem_map, mem_mergeUnique, or_and_right, exists_or]

theorem mem_members_remove {other : Bytes} :
    other ∈ (s.remove member).members ↔ other ∈ s.members ∧ other ≠ member := by
  unfold remove
  split
  · rename_i value hvalue
    obtain ⟨rfl, -⟩ := parseIntSetMember_eq_some_iff.mp hvalue
    simp only [members, mem_map, mem_filter, decide_eq_true_eq]
    constructor
    · rintro ⟨v, ⟨hv, hne⟩, rfl⟩
      exact ⟨⟨v, hv, rfl⟩, fun h => hne (formatInt_injective h)⟩
    · rintro ⟨⟨v, hv, rfl⟩, hne⟩
      exact ⟨v, ⟨hv, fun h => hne (congrArg formatInt h)⟩, rfl⟩
  · rename_i hnone
    refine ⟨fun h => ⟨h, ?_⟩, fun h => h.1⟩
    -- a member of the set is canonical, the one to be removed is not
    rintro rfl
    obtain ⟨v, hv, rfl⟩ := mem_map.mp h
    rw [parseIntSetMember_eq_some_iff.mpr ⟨rfl, s.bounded v hv⟩] at hnone
    cases hnone

end IntSet

/-! ## Both encodings -/

/-- The payload of a set value: `Set` or `IntSet`, as `SetEncoding` says. -/
inductive SetRep where
  | general (members : Map Bytes Unit)
  | compact (set : IntSet)

/-- `mustAddSetMembers`: the new map and the number of new members. -/
def mustAddSetMembers (set : Map Bytes Unit) (members : List Bytes) : Map Bytes Unit × Nat :=
  members.foldl
    (fun acc member =>
      (if (acc.1.lookup member).isSome then acc.1 else acc.1.insert member (),
        if (acc.1.lookup member).isSome then acc.2 else acc.2 + 1))
    (set, 0)

/-- `generalSet`. -/
def IntSet.generalSet (s : IntSet) : Map Bytes Unit :=
  (mustAddSetMembers ∅ s.members).1

namespace SetRep

/-- `newSetValueForMembers`. -/
def ofMembers (members : List Bytes) : SetRep :=
  match IntSet.ofMembers members with
  | some set => if set.len ≤ intSetMaxEntries then .compact set
    else .general (mustAddSetMembers ∅ members).1
  | none => .general (mustAddSetMembers ∅ members).1

/-- `setLen`. -/
def len : SetRep → Nat
  | .general members => members.keys.length
  | .compact set => set.len

/-- `setContains`. -/
def contains : SetRep → Bytes → Bool
  | .general members, member => (members.lookup member).isSome
  | .compact set, member => set.contains member

/-- `setAdd`: an integer set is upgraded when a member is no integer or when it has grown too
large. -/
def add : SetRep → List Bytes → SetRep × Nat
  | .general set, members =>
    let (set', added) := mustAddSetMembers set members
    (.general set', added)
  | .compact set, members =>
    match set.addMany members with
    | none =>
      let (set', added) := mustAddSetMembers set.generalSet members
      (.general set', added)
    | some (set', added) =>
      if set'.len > intSetMaxEntries then (.general set'.generalSet, added)
      else (.compact set', added)

/-- `setRemove`. -/
def remove : SetRep → List Bytes → SetRep × Nat
  | .general set, members =>
    let (set', removed) := members.foldl
      (fun acc member =>
        (acc.1.erase member, if (acc.1.lookup member).isSome then acc.2 + 1 else acc.2))
      (set, 0)
    (.general set', removed)
  | .compact set, members =>
    let (set', removed) := members.foldl
      (fun acc member => (acc.1.remove member, if acc.1.contains member then acc.2 + 1 else acc.2))
      (set, 0)
    (.compact set', removed)

/-- `cloneSetValue`: a slice of integers is copied as it is, a map is filled again. -/
def clone (order : MapOrder Bytes) : SetRep → SetRep
  | .general set => .general (rebuild order set)
  | .compact set => .compact set

/-- `setMembers`. -/
def members (order : MapOrder Bytes) : SetRep → List Bytes
  | .general set => (iterate order set).map Prod.fst
  | .compact set => set.members

end SetRep

/-! ## The meaning of the operations -/

theorem isSome_mustAddSetMembers (set : Map Bytes Unit) (members : List Bytes) (member : Bytes) :
    ((mustAddSetMembers set members).1.lookup member).isSome =
      ((set.lookup member).isSome || decide (member ∈ members)) := by
  rw [mustAddSetMembers, foldl_fst fun (m : Map Bytes Unit) member =>
    if (m.lookup member).isSome then m else m.insert member ()]
  induction members generalizing set with
  | nil => simp
  | cons first members ih =>
    rw [foldl_cons, ih]
    by_cases hfirst : member = first
    · subst hfirst
      split
      · rename_i hsome
        simp [hsome]
      · simp [AList.lookup_insert]
    · split
      · simp [hfirst]
      · rw [AList.lookup_insert_ne hfirst]
        simp [hfirst]

theorem IntSet.isSome_generalSet (s : IntSet) (member : Bytes) :
    (s.generalSet.lookup member).isSome = s.contains member := by
  rw [generalSet, isSome_mustAddSetMembers, Bool.eq_iff_iff]
  simp [contains_iff]

variable (rep : SetRep) (members : List Bytes)

/-- **A new set holds its members.** -/
theorem SetRep.contains_ofMembers :
    (SetRep.ofMembers members).contains = fun member => decide (member ∈ members) := by
  funext member
  have hgeneral : ((mustAddSetMembers ∅ members).1.lookup member).isSome =
      decide (member ∈ members) := by
    rw [isSome_mustAddSetMembers]
    simp
  unfold SetRep.ofMembers
  split
  · rename_i set hset
    split
    · change set.contains member = _
      rw [Bool.eq_iff_iff, IntSet.contains_iff, IntSet.members_ofMembers hset, decide_eq_true_eq]
    · exact hgeneral
  · exact hgeneral

/-- **`setAdd` is the union with the members**, through every change of encoding. -/
theorem SetRep.contains_add :
    (rep.add members).1.contains =
      fun member => rep.contains member || decide (member ∈ members) := by
  funext member
  cases rep with
  | general set => exact isSome_mustAddSetMembers set members member
  | compact set =>
    unfold SetRep.add
    simp only
    cases hadd : set.addMany members with
    | none =>
      change ((mustAddSetMembers set.generalSet members).1.lookup member).isSome = _
      rw [isSome_mustAddSetMembers, IntSet.isSome_generalSet]
      rfl
    | some result =>
      obtain ⟨set', added⟩ := result
      obtain ⟨t, ht, hpair⟩ := Option.map_eq_some_iff.mp hadd
      obtain ⟨rfl, -⟩ := Prod.mk.inj hpair
      have hunion : (set.union t).contains member =
          (set.contains member || decide (member ∈ members)) := by
        rw [Bool.eq_iff_iff, IntSet.contains_iff, IntSet.mem_members_union,
          IntSet.members_ofMembers ht]
        simp [IntSet.contains_iff]
      simp only
      split
      · exact (IntSet.isSome_generalSet _ member).trans hunion
      · exact hunion

/-- **A copy holds what the set holds.** -/
theorem SetRep.contains_clone (order : MapOrder Bytes) (rep : SetRep) :
    (rep.clone order).contains = rep.contains := by
  cases rep with
  | general set =>
    funext member
    exact congrArg Option.isSome (congrFun (lookup_rebuild order set) member)
  | compact set => rfl

/-- **`setRemove` is the difference with the members.** -/
theorem SetRep.contains_remove :
    (rep.remove members).1.contains =
      fun member => rep.contains member && !decide (member ∈ members) := by
  funext member
  cases rep with
  | general set =>
    simp only [SetRep.remove, SetRep.contains]
    rw [foldl_fst fun (m : Map Bytes Unit) member => m.erase member]
    induction members generalizing set with
    | nil => simp
    | cons first members ih =>
      rw [foldl_cons, ih]
      by_cases hfirst : member = first
      · subst hfirst
        simp [AList.lookup_erase]
      · rw [AList.lookup_erase_ne hfirst]
        simp [hfirst]
  | compact set =>
    simp only [SetRep.remove, SetRep.contains]
    rw [foldl_fst IntSet.remove]
    induction members generalizing set with
    | nil => simp
    | cons first members ih =>
      rw [foldl_cons, ih, Bool.eq_iff_iff]
      simp only [Bool.and_eq_true, IntSet.contains_iff, IntSet.mem_members_remove]
      simp [and_assoc]

theorem SetRep.len_eq_zero_iff : rep.len = 0 ↔ ∀ member, rep.contains member = false := by
  cases rep with
  | general set =>
    refine length_eq_zero_iff.trans (keys_eq_nil_iff.trans ?_)
    simp [SetRep.contains]
  | compact set =>
    refine length_eq_zero_iff.trans ?_
    constructor
    · intro hnil member
      rw [← Bool.not_eq_true]
      intro hmem
      have := IntSet.contains_iff.mp hmem
      simp [IntSet.members, hnil] at this
    · intro hall
      refine eq_nil_iff_forall_not_mem.mpr fun value hvalue => ?_
      have : set.contains (formatInt value) = true :=
        IntSet.contains_iff.mpr (mem_map.mpr ⟨value, hvalue, rfl⟩)
      rw [show set.contains (formatInt value) = false from hall _] at this
      cases this

/-- **The members handed out are the set**, in whatever order. -/
theorem SetRep.mem_members {order : MapOrder Bytes} {rep : SetRep} {member : Bytes} :
    member ∈ rep.members order ↔ rep.contains member = true := by
  cases rep with
  | general set =>
    rw [SetRep.members, iterate_fst, (order.perm _).mem_iff, ← AList.mem_keys,
      ← AList.lookup_isSome]
    rfl
  | compact set => exact IntSet.contains_iff.symm

/-! ## Counts -/

theorem length_mergeUnique (xs ys : List Int) :
    (mergeUnique xs ys).1.length = xs.length + (mergeUnique xs ys).2 := by
  fun_induction mergeUnique xs ys with
  | case1 ys => simp
  | case2 xs => rfl
  | case3 x xs y ys hlt merged added heq ih =>
    simp only [heq, length_cons] at ih ⊢
    omega
  | case4 x xs y ys hle hlt merged added heq ih =>
    simp only [heq, length_cons] at ih ⊢
    omega
  | case5 x xs y ys hle hge merged added heq ih =>
    simp only [heq, length_cons] at ih ⊢
    omega

theorem IntSet.nodup_members (s : IntSet) : s.members.Nodup := by
  have hnodup : s.values.Nodup := s.sorted.imp fun hlt => ne_of_lt hlt
  exact hnodup.map formatInt_injective

theorem IntSet.len_remove (s : IntSet) (member : Bytes) :
    (s.remove member).len + (if s.contains member then 1 else 0) = s.len := by
  have hcount := @length_filter_ne _ formatInt s.values s.nodup_members member
  have hmem : (s.contains member = true) = (member ∈ s.values.map formatInt) :=
    propext IntSet.contains_iff
  unfold remove
  split
  · rename_i value hvalue
    obtain ⟨rfl, -⟩ := parseIntSetMember_eq_some_iff.mp hvalue
    have hfilter : (s.values.filter fun v => formatInt v ≠ formatInt value) =
        s.values.filter (· ≠ value) :=
      filter_congr fun v _ => by simp [formatInt_injective.eq_iff]
    rw [hfilter] at hcount
    simp only [hmem]
    exact hcount
  · rename_i hnone
    have hnot : ¬s.contains member = true := by
      rw [contains, hnone]
      exact Bool.false_ne_true
    rw [if_neg hnot]
    rfl

namespace SetRep

variable (order : MapOrder Bytes) (rep : SetRep) (members : List Bytes)

theorem nodup_members : (rep.members order).Nodup := by
  cases rep with
  | general set => exact nodup_iterate
  | compact set => exact set.nodup_members

theorem length_members : (rep.members order).length = rep.len := by
  cases rep with
  | general set =>
    rw [members, iterate_fst, (order.perm _).length_eq]
    rfl
  | compact set => exact length_map _

/-- **Two encodings of one set hand out the same members.** -/
theorem perm_members {rep rep' : SetRep} (h : rep.contains = rep'.contains)
    (order order' : MapOrder Bytes) : (rep.members order).Perm (rep'.members order') := by
  refine (perm_ext_iff_of_nodup (rep.nodup_members order) (rep'.nodup_members order')).mpr
    fun member => ?_
  rw [mem_members, mem_members, h]

theorem len_congr {rep rep' : SetRep} (h : rep.contains = rep'.contains) : rep.len = rep'.len := by
  rw [← rep.length_members (MapOrder.id Bytes), ← rep'.length_members (MapOrder.id Bytes)]
  exact (perm_members h _ _).length_eq

theorem len_mustAddSetMembers (set : Map Bytes Unit) (members : List Bytes) :
    (mustAddSetMembers set members).1.keys.length =
      set.keys.length + (mustAddSetMembers set members).2 := by
  have hstep : ∀ (m : Map Bytes Unit) (member : Bytes),
      (if (m.lookup member).isSome then m else m.insert member ()).keys.length =
        m.keys.length + if (m.lookup member).isSome then 0 else 1 := by
    intro m member
    by_cases hknown : (m.lookup member).isSome = true
    · rw [if_pos hknown, if_pos hknown]
      rfl
    · rw [if_neg hknown, length_keys_insert]
  exact foldl_count_new (fun m : Map Bytes Unit => m.keys.length)
    (fun m member => (m.lookup member).isSome) hstep members set 0

theorem len_generalSet (set : IntSet) : set.generalSet.keys.length = set.len :=
  @len_congr (.general set.generalSet) (.compact set) (funext set.isSome_generalSet)

theorem len_add : (rep.add members).1.len = rep.len + (rep.add members).2 := by
  cases rep with
  | general set => exact len_mustAddSetMembers set members
  | compact set =>
    unfold SetRep.add
    simp only
    cases hadd : set.addMany members with
    | none => exact (len_mustAddSetMembers _ members).trans (by rw [len_generalSet]; rfl)
    | some result =>
      obtain ⟨set', added⟩ := result
      obtain ⟨t, -, hpair⟩ := Option.map_eq_some_iff.mp hadd
      obtain ⟨rfl, rfl⟩ := Prod.mk.inj hpair
      have hmerge := length_mergeUnique set.values t.values
      simp only
      split
      · exact (len_generalSet _).trans hmerge
      · exact hmerge

theorem len_remove : (rep.remove members).1.len + (rep.remove members).2 = rep.len := by
  cases rep with
  | general set =>
    exact foldl_count_gone (fun m : Map Bytes Unit => m.keys.length)
      (fun m member => (m.lookup member).isSome) length_keys_erase members set 0
  | compact set =>
    exact foldl_count_gone IntSet.len IntSet.contains IntSet.len_remove members set 0

theorem add_count_congr {rep rep' : SetRep} (h : rep.contains = rep'.contains)
    (members : List Bytes) : (rep.add members).2 = (rep'.add members).2 :=
  added_congr (rep.len_add members) (rep'.len_add members) (len_congr h)
    (len_congr (by rw [contains_add, contains_add, h]))

theorem remove_count_congr {rep rep' : SetRep} (h : rep.contains = rep'.contains)
    (members : List Bytes) : (rep.remove members).2 = (rep'.remove members).2 :=
  added_congr (rep.len_remove members).symm (rep'.len_remove members).symm
    (len_congr (by rw [contains_remove, contains_remove, h])) (len_congr h)

end SetRep

end Stash
