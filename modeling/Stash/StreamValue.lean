import Stash.StorageBase

/-!
# Streams

A stream holds its entries in the order they were added, with the highest ID admitted so far.  An
explicit ID has to be above that one; the automatic ID is made from the clock and the last ID.
The sequence number is a machine integer, so the automatic ID of a stream whose last sequence
number is the largest one wraps around.  As long as no ID is negative the entries ascend.
-/

namespace Stash

open DecimalText List

/-! ## Copies of slices -/

/-- A loop that appends the image of each element to a new slice. -/
def collect {α β : Type} (f : α → β) (src : List α) : List β :=
  src.foldl (fun dst x => dst ++ [f x]) []

theorem collect_eq_map {α β : Type} (f : α → β) (src : List α) : collect f src = src.map f := by
  have hfold : ∀ dst, src.foldl (fun dst x => dst ++ [f x]) dst = dst ++ src.map f := by
    induction src with
    | nil => exact fun dst => (append_nil dst).symm
    | cons x src ih => exact fun dst => (ih _).trans (by rw [map_cons, append_assoc]; rfl)
  exact hfold []

def cloneBytes (src : Bytes) : Bytes :=
  collect id src

/-- `append([][]byte(nil), list...)`: the slice is new, its elements are not. -/
def copyList (items : List Bytes) : List Bytes :=
  collect id items

def cloneList (items : List Bytes) : List Bytes :=
  collect cloneBytes items

theorem copyList_eq (items : List Bytes) : copyList items = items := by
  rw [copyList, collect_eq_map, map_id]

theorem cloneList_eq (items : List Bytes) : cloneList items = items := by
  have hbytes : cloneBytes = id := funext fun src => (collect_eq_map id src).trans (map_id src)
  rw [cloneList, collect_eq_map, hbytes, map_id]

/-! ## Identifiers -/

/-- `streamID`. -/
structure StreamID where
  milliseconds : Int
  sequence : Int
  deriving DecidableEq, Repr

namespace StreamID

/-- `compareStreamIDs`. -/
def compare (left right : StreamID) : Int :=
  if left.milliseconds < right.milliseconds then -1
  else if left.milliseconds > right.milliseconds then 1
  else if left.sequence < right.sequence then -1
  else if left.sequence > right.sequence then 1
  else 0

/-- `String`: the two numbers with a dash between them. -/
def text (id : StreamID) : Bytes :=
  formatInt id.milliseconds ++ ascii "-" ++ formatInt id.sequence

/-- Neither part is negative. -/
def Nonneg (id : StreamID) : Prop :=
  0 ≤ id.milliseconds ∧ 0 ≤ id.sequence

/-- Both parts have 64 bits. -/
def Bounded (id : StreamID) : Prop :=
  InInt64 id.milliseconds ∧ InInt64 id.sequence

theorem compare_pos_iff {left right : StreamID} :
    0 < compare left right ↔
      right.milliseconds < left.milliseconds ∨
        right.milliseconds = left.milliseconds ∧ right.sequence < left.sequence := by
  unfold compare
  split
  · omega
  · split
    · omega
    · split
      · omega
      · split <;> omega

end StreamID

/-- `strings.Cut` at the first dash. -/
def cutDash : Bytes → Option (Bytes × Bytes)
  | [] => none
  | b :: rest =>
    if b = 45 then some ([], rest)
    else (cutDash rest).map fun parts => (b :: parts.1, parts.2)

/-- `parseNonNegativeStreamInt`. -/
def parseNonNegativeStreamInt (raw : Bytes) : Except StorageError Int :=
  match readInt64 raw with
  | some value => if value < 0 then .error .invalidStreamID else .ok value
  | none => .error .invalidStreamID

/-- `parseStreamAddID`. -/
def parseStreamAddID (raw : Bytes) : Except StorageError StreamID :=
  match cutDash raw with
  | none => .error .invalidStreamID
  | some (millisecondsPart, sequencePart) =>
    if millisecondsPart = [] ∨ sequencePart = [] ∨ 45 ∈ sequencePart then .error .invalidStreamID
    else do
      let milliseconds ← parseNonNegativeStreamInt millisecondsPart
      let sequence ← parseNonNegativeStreamInt sequencePart
      return ⟨milliseconds, sequence⟩

/-- `ValidateXAddID`. -/
def validateXAddID (raw : Bytes) : Except StorageError Unit :=
  if raw = ascii "*" then .ok ()
  else (parseStreamAddID raw).map fun _ => ()

/-- `ValidateXReadID`. -/
def validateXReadID (raw : Bytes) : Except StorageError Unit :=
  if raw = ascii "$" then .ok ()
  else
    match cutDash raw with
    | none => (parseNonNegativeStreamInt raw).map fun _ => ()
    | some _ => (parseStreamAddID raw).map fun _ => ()

/-- `parseStreamReadID`. -/
def parseStreamReadID (raw : Bytes) (latest : StreamID) : Except StorageError StreamID :=
  if raw = ascii "$" then .ok latest
  else
    match cutDash raw with
    | none => (parseNonNegativeStreamInt raw).map fun milliseconds => ⟨milliseconds, 0⟩
    | some _ => parseStreamAddID raw

/-! ## Explicit IDs -/

theorem cutDash_append {left : Bytes} (h : 45 ∉ left) (right : Bytes) :
    cutDash (left ++ 45 :: right) = some (left, right) := by
  induction left with
  | nil => rfl
  | cons b left ih =>
    rw [mem_cons, not_or] at h
    rw [cons_append, cutDash, if_neg (Ne.symm h.1), ih h.2]
    rfl

variable {z now : Int} {id : StreamID} {rawID : Bytes}

theorem dash_not_mem_formatInt (h : 0 ≤ z) : (45 : UInt8) ∉ formatInt z := by
  obtain ⟨n, rfl⟩ := Int.eq_ofNat_of_zero_le h
  intro hmem
  have hdigit : isDigit 45 = true := all_eq_true.mp (formatNat_all_digits n) 45 hmem
  exact absurd hdigit (by decide)

theorem parseStreamInt_formatInt (h : 0 ≤ z) (hrange : InInt64 z) :
    parseNonNegativeStreamInt (formatInt z) = .ok z := by
  rw [parseNonNegativeStreamInt, readInt64_formatInt hrange]
  simp only
  rw [if_neg (by omega)]

/-- **The text of a non-negative ID is read back as that ID.** -/
theorem parseStreamAddID_text (hnonneg : id.Nonneg) (hbounded : id.Bounded) :
    parseStreamAddID id.text = .ok id := by
  have hcut : cutDash id.text = some (formatInt id.milliseconds, formatInt id.sequence) := by
    rw [StreamID.text, append_assoc]
    exact cutDash_append (dash_not_mem_formatInt hnonneg.1) _
  unfold parseStreamAddID
  rw [hcut]
  simp only
  rw [if_neg (by simp [formatInt_ne_nil, dash_not_mem_formatInt hnonneg.2]),
    parseStreamInt_formatInt hnonneg.1 hbounded.1,
    parseStreamInt_formatInt hnonneg.2 hbounded.2]
  rfl

theorem parseStreamInt_ok {raw : Bytes} {value : Int}
    (h : parseNonNegativeStreamInt raw = .ok value) : 0 ≤ value ∧ InInt64 value := by
  unfold parseNonNegativeStreamInt at h
  cases hread : readInt64 raw with
  | none => rw [hread] at h; cases h
  | some v =>
    rw [hread] at h
    simp only at h
    split at h
    · cases h
    · cases h
      exact ⟨by omega, (readInt64_eq_some_iff.mp hread).2⟩

/-- An ID that was accepted is non-negative and has 64 bits. -/
theorem parseStreamAddID_ok {raw : Bytes} (h : parseStreamAddID raw = .ok id) :
    id.Nonneg ∧ id.Bounded := by
  unfold parseStreamAddID at h
  cases hcut : cutDash raw with
  | none => rw [hcut] at h; cases h
  | some parts =>
    rw [hcut] at h
    simp only at h
    split at h
    · cases h
    · cases hms : parseNonNegativeStreamInt parts.1 with
      | error => rw [hms] at h; cases h
      | ok milliseconds =>
        cases hseq : parseNonNegativeStreamInt parts.2 with
        | error => rw [hms, hseq] at h; cases h
        | ok sequence =>
          rw [hms, hseq] at h
          cases h
          have h₁ := parseStreamInt_ok hms
          have h₂ := parseStreamInt_ok hseq
          exact ⟨⟨h₁.1, h₂.1⟩, h₁.2, h₂.2⟩

/-- An automatic ID is asked for by a star, which is no explicit ID. -/
theorem text_ne_star (id : StreamID) : id.text ≠ ascii "*" := by
  intro h
  have hmem : (45 : UInt8) ∈ id.text := by simp [StreamID.text, ascii]
  rw [h] at hmem
  exact absurd hmem (by decide)

/-! ## Admitting an ID -/

/-- The ID of an entry made at `now`, after the last one. -/
def nextAutoID (last : Option StreamID) (now : Int) : StreamID :=
  match last with
  | none => ⟨now, 0⟩
  | some lastID =>
    if now < lastID.milliseconds then ⟨lastID.milliseconds, wrap64 (lastID.sequence + 1)⟩
    else if now = lastID.milliseconds then ⟨now, wrap64 (lastID.sequence + 1)⟩
    else ⟨now, 0⟩

/-- The ID that `add` gives an entry: a star asks for an automatic one. -/
def admitID (last : Option StreamID) (rawID : Bytes) (now : Int) : Except StorageError StreamID :=
  if rawID = ascii "*" then .ok (nextAutoID last now)
  else do
    let id ← parseStreamAddID rawID
    match last with
    | some lastID => if id.compare lastID ≤ 0 then .error .streamIDTooSmall else .ok id
    | none => .ok id

/-- `right` has the higher ID. -/
def StreamID.Before (left right : StreamID) : Prop :=
  0 < right.compare left

theorem StreamID.Before.trans {a b c : StreamID} (h : a.Before b) (h' : b.Before c) :
    a.Before c := by
  unfold Before at *
  rw [compare_pos_iff] at *
  omega

theorem inInt64_wrap64 (z : Int) : InInt64 (wrap64 z) := by
  have hlow := Int.le_bmod (x := z) (m := 2 ^ 64) (by decide)
  have hhigh := Int.bmod_lt (x := z) (m := 2 ^ 64) (by decide)
  unfold InInt64 wrap64
  omega

/-- The next sequence number is larger, unless it has wrapped around. -/
theorem lt_wrap64_succ (h : InInt64 z) (hnonneg : 0 ≤ wrap64 (z + 1)) : z < wrap64 (z + 1) := by
  by_cases hmax : z = 2 ^ 63 - 1
  · subst hmax
    exact absurd hnonneg (by decide)
  · have : InInt64 (z + 1) := by unfold InInt64 at *; omega
    rw [wrap64_of_inInt64 this]
    omega

theorem nextAutoID_bounded {last : Option StreamID} (hnow : InInt64 now)
    (hlast : ∀ lastID, last = some lastID → lastID.Bounded) : (nextAutoID last now).Bounded := by
  have hzero : InInt64 0 := by decide
  cases last with
  | none => exact ⟨hnow, hzero⟩
  | some lastID =>
    have hbounded := hlast lastID rfl
    unfold nextAutoID
    simp only
    split
    · exact ⟨hbounded.1, inInt64_wrap64 _⟩
    · split
      · exact ⟨hnow, inInt64_wrap64 _⟩
      · exact ⟨hnow, hzero⟩

theorem before_nextAutoID {lastID : StreamID} (hbounded : lastID.Bounded)
    (hnonneg : (nextAutoID (some lastID) now).Nonneg) :
    lastID.Before (nextAutoID (some lastID) now) := by
  unfold StreamID.Before
  rw [StreamID.compare_pos_iff]
  unfold nextAutoID at *
  simp only at *
  split at hnonneg
  · rw [if_pos ‹_›]
    exact .inr ⟨rfl, lt_wrap64_succ hbounded.2 hnonneg.2⟩
  · rw [if_neg ‹_›]
    split at hnonneg
    · rw [if_pos ‹_›]
      exact .inr ⟨(‹now = _›).symm, lt_wrap64_succ hbounded.2 hnonneg.2⟩
    · rw [if_neg ‹_›]
      exact .inl (by simp only; omega)

/-- An explicit ID is admitted as it was written, if it is above the last one. -/
theorem admitID_parsed {last : Option StreamID}
    (hexplicit : rawID ≠ ascii "*") (h : admitID last rawID now = .ok id) :
    parseStreamAddID rawID = .ok id ∧ ∀ lastID, last = some lastID → lastID.Before id := by
  rw [admitID, if_neg hexplicit] at h
  obtain ⟨parsed, hparse, hadmit⟩ := bind_ok h
  cases last with
  | none =>
    cases hadmit
    exact ⟨hparse, fun _ hnone => by cases hnone⟩
  | some lastID =>
    dsimp only at hadmit
    split at hadmit
    · cases hadmit
    · cases hadmit
      refine ⟨hparse, ?_⟩
      rintro _ ⟨⟩
      exact not_le.mp ‹_›

/-- **What an admitted ID is**: it has 64 bits, and it is above the last one unless it is
negative. -/
theorem admitID_ok {last : Option StreamID} (h : admitID last rawID now = .ok id)
    (hnow : InInt64 now) (hlast : ∀ lastID, last = some lastID → lastID.Bounded) :
    id.Bounded ∧ (id.Nonneg → ∀ lastID, last = some lastID → lastID.Before id) := by
  by_cases hstar : rawID = ascii "*"
  · rw [admitID, if_pos hstar] at h
    cases h
    refine ⟨nextAutoID_bounded hnow hlast, ?_⟩
    rintro hnonneg lastID rfl
    exact before_nextAutoID (hlast lastID rfl) hnonneg
  · obtain ⟨hparse, habove⟩ := admitID_parsed hstar h
    exact ⟨(parseStreamAddID_ok hparse).2, fun _ => habove⟩

/-- A star is always admitted, with the automatic ID. -/
theorem admitID_star (last : Option StreamID) (now : Int) :
    admitID last (ascii "*") now = .ok (nextAutoID last now) :=
  if_pos rfl

/-- An explicit ID is admitted regardless of the clock. -/
theorem admitID_explicit (h : rawID ≠ ascii "*") (last : Option StreamID)
    (now now' : Int) : admitID last rawID now = admitID last rawID now' := by
  rw [admitID, admitID, if_neg h, if_neg h]

/-- The text of an ID above the last one is admitted as that ID. -/
theorem admitID_text {last : Option StreamID} (hnonneg : id.Nonneg)
    (hbounded : id.Bounded) (hlast : ∀ lastID, last = some lastID → lastID.Before id) (now : Int) :
    admitID last id.text now = .ok id := by
  rw [admitID, if_neg (text_ne_star id), parseStreamAddID_text hnonneg hbounded]
  cases last with
  | none => rfl
  | some lastID => exact if_neg (not_le.mpr (hlast lastID rfl))

/-! ## The value -/

/-- `streamRecord`. -/
structure StreamRecord where
  id : StreamID
  values : List Bytes
  deriving DecidableEq, Repr

/-- The text kept beside the ID. -/
def StreamRecord.idText (record : StreamRecord) : Bytes :=
  record.id.text

/-- The loop of `cloneStreamValue`. -/
def cloneRecords (entries : List StreamRecord) : List StreamRecord :=
  collect (fun entry => ⟨entry.id, cloneList entry.values⟩) entries

theorem cloneRecords_eq (entries : List StreamRecord) : cloneRecords entries = entries := by
  simp only [cloneRecords, collect_eq_map, cloneList_eq, map_id_fun', id_eq]

/-- The ID of the last entry. -/
def lastStreamID (entries : List StreamRecord) : Option StreamID :=
  entries.getLast?.map StreamRecord.id

/-- `StreamValue`. -/
structure StreamValue where
  entries : List StreamRecord
  lastID : StreamID
  hasEntries : Bool
  /-- the last ID is that of the last entry -/
  latest : lastStreamID entries = if hasEntries then some lastID else none
  bounded : ∀ record ∈ entries, record.id.Bounded
  ascending : (∀ record ∈ entries, record.id.Nonneg) →
    entries.Pairwise fun left right => left.id.Before right.id

namespace StreamValue

/-- `newStream`. -/
def empty : StreamValue where
  entries := []
  lastID := ⟨0, 0⟩
  hasEntries := false
  latest := rfl
  bounded := fun _ h => by cases h
  ascending := fun _ => List.Pairwise.nil

/-- `cloneStreamValue`. -/
def clone (src : StreamValue) : StreamValue where
  entries := cloneRecords src.entries
  lastID := src.lastID
  hasEntries := src.hasEntries
  latest := by
    rw [cloneRecords_eq]
    exact src.latest
  bounded := by
    rw [cloneRecords_eq]
    exact src.bounded
  ascending := by
    rw [cloneRecords_eq]
    exact src.ascending

/-- **The copy that an accounted write adds to is the stream under the key.** -/
theorem clone_eq (src : StreamValue) : src.clone = src := by
  rcases src with ⟨entries, lastID, hasEntries, latest, bounded, ascending⟩
  simp only [clone, cloneRecords_eq]

/-- The last ID that `add` compares with. -/
def last (s : StreamValue) : Option StreamID :=
  if s.hasEntries then some s.lastID else none

theorem last_eq (s : StreamValue) : s.last = lastStreamID s.entries :=
  s.latest.symm

theorem last_bounded (s : StreamValue) : ∀ lastID, s.last = some lastID → lastID.Bounded := by
  intro lastID h
  rw [last_eq, lastStreamID, Option.map_eq_some_iff] at h
  obtain ⟨record, hrecord, rfl⟩ := h
  exact s.bounded record (mem_of_getLast? hrecord)

theorem ascending_append {entries : List StreamRecord} {record : StreamRecord}
    (hentries : entries.Pairwise fun left right => left.id.Before right.id)
    (hlast : ∀ lastID, lastStreamID entries = some lastID → lastID.Before record.id) :
    (entries ++ [record]).Pairwise fun left right => left.id.Before right.id := by
  induction entries using List.reverseRecOn with
  | nil => exact pairwise_singleton _ _
  | append_singleton entries last _ =>
    have hbefore : last.id.Before record.id := hlast last.id (by simp [lastStreamID])
    refine pairwise_append.mpr ⟨hentries, pairwise_singleton _ _, ?_⟩
    intro left hleft right hright
    obtain rfl := mem_singleton.mp hright
    rcases mem_append.mp hleft with hleft | hleft
    · exact ((pairwise_append.mp hentries).2.2 left hleft last
        (mem_singleton_self _)).trans hbefore
    · obtain rfl := mem_singleton.mp hleft
      exact hbefore

/-- The stream with one more entry, whose ID was admitted. -/
def push (s : StreamValue) (rawID : Bytes) (values : List Bytes) (now : Instant) (id : StreamID)
    (h : admitID s.last rawID now.millis = .ok id) : StreamValue where
  entries := s.entries ++ [⟨id, values⟩]
  lastID := id
  hasEntries := true
  latest := by simp [lastStreamID]
  bounded := by
    intro record hrecord
    rcases mem_append.mp hrecord with hrecord | hrecord
    · exact s.bounded record hrecord
    · obtain rfl := mem_singleton.mp hrecord
      exact (admitID_ok h now.inInt64_millis s.last_bounded).1
  ascending := by
    intro hnonneg
    refine ascending_append
      (s.ascending fun record hrecord => hnonneg record (mem_append_left _ hrecord)) ?_
    rw [← last_eq]
    exact (admitID_ok h now.inInt64_millis s.last_bounded).2
      (hnonneg ⟨id, values⟩ (mem_append_right _ (mem_singleton_self _)))

end StreamValue

/-- Add to the entries of a stream. -/
def streamAdd (entries : List StreamRecord) (rawID : Bytes) (values : List Bytes) (now : Int) :
    Except StorageError (List StreamRecord) :=
  (admitID (lastStreamID entries) rawID now).map fun id => entries ++ [⟨id, values⟩]

/-! ## Reading -/

/-- `StreamEntry`. -/
structure StreamEntry where
  id : Bytes
  values : List Bytes
  deriving DecidableEq, Repr

/-- The loop of `sort.Search`. -/
def searchLoop (f : Nat → Bool) (i j : Nat) : Nat :=
  if i < j then
    if f ((i + j) / 2) then searchLoop f i ((i + j) / 2) else searchLoop f ((i + j) / 2 + 1) j
  else i
termination_by j - i

/-- The entries as they are handed out. -/
def streamEntries (records : List StreamRecord) : List StreamEntry :=
  records.map fun record => ⟨record.idText, record.values⟩

/-- `entriesAfter`. -/
def StreamValue.entriesAfter (s : StreamValue) (rawID : Bytes) :
    Except StorageError (List StreamEntry) :=
  if s.entries = [] then .ok []
  else do
    let after ← parseStreamReadID rawID s.lastID
    let above (i : Nat) : Bool :=
      match s.entries[i]? with
      | some record => 0 < record.id.compare after
      | none => true
    return streamEntries (s.entries.drop (searchLoop above 0 s.entries.length))

end Stash
