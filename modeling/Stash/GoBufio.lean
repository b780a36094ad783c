import Mathlib.Data.List.Basic

/-!
# Buffered reading

An `io.Reader` delivers its input in pieces, and `bufio.Reader` puts a buffer of fixed size in front
of it.  What the functions of the buffered reader return depends on what is left of the input, not on
the pieces it comes in: `left` is the view of a reader, and each function is described through it.
The one exception is a buffer that is filled to the brim by the last bytes of the input, where
`ReadSlice` reports either the end or the full buffer.
-/

namespace Bufio

open List

variable {α : Type}

/-! ## The reader underneath -/

/-- The pieces that the calls of `Read` return, none of them empty; then `io.EOF`.  It may come with
the last piece. -/
structure Source (α : Type) where
  pieces : List (List α)
  nonempty : ∀ piece ∈ pieces, piece ≠ []
  eager : Bool

namespace Source

/-- `Read` into a slice of length `k`: the data, whether the end was reported, and the reader after
it. -/
def read (s : Source α) (k : Nat) : List α × Bool × Source α :=
  match s with
  | ⟨[], h, eager⟩ => ([], true, ⟨[], h, eager⟩)
  | ⟨piece :: pieces, h, eager⟩ =>
    if hk : piece.length ≤ k then
      (piece, eager && pieces.isEmpty, ⟨pieces, fun p hp => h p (mem_cons_of_mem _ hp), eager⟩)
    else
      (piece.take k, false, ⟨piece.drop k :: pieces, fun p hp => by
        rcases mem_cons.mp hp with rfl | hp
        · intro hnil
          rw [drop_eq_nil_iff] at hnil
          exact hk hnil
        · exact h p (mem_cons_of_mem _ hp), eager⟩)

/-- What is still to come. -/
def rest (s : Source α) : List α :=
  s.pieces.flatten

/-- **What a call of `Read` does.** -/
structure Reads (s : Source α) (k : Nat) (data : List α) (eof : Bool) (s' : Source α) : Prop where
  split : s.rest = data ++ s'.rest
  length_le : data.length ≤ k
  progress : 0 < k → data = [] → eof = true
  ended : eof = true → s'.pieces = []

theorem reads_read (s : Source α) (k : Nat) :
    Reads s k (s.read k).1 (s.read k).2.1 (s.read k).2.2 := by
  obtain ⟨pieces, h, eager⟩ := s
  cases pieces with
  | nil => exact ⟨rfl, Nat.zero_le _, fun _ _ => rfl, fun _ => rfl⟩
  | cons piece pieces =>
    unfold read
    simp only
    split
    · rename_i hk
      refine ⟨rfl, hk, fun _ hnil => absurd hnil (h piece mem_cons_self), fun heof => ?_⟩
      simp only [Bool.and_eq_true, List.isEmpty_iff] at heof
      exact heof.2
    · rename_i hk
      refine ⟨?_, length_take_le _ _, fun hpos hnil => ?_, fun heof => by cases heof⟩
      · simp only [rest, flatten_cons]
        rw [← append_assoc, take_append_drop]
      · rw [take_eq_nil_iff] at hnil
        rcases hnil with hzero | hpiece
        · omega
        · exact absurd hpiece (h piece mem_cons_self)

end Source

/-! ## The buffer -/

/-- A `bufio.Reader` with a buffer of the given size: the bytes in the buffer that were not read yet,
and whether the end was reported (`err`). -/
structure Reader (α : Type) (size : Nat) where
  buf : List α
  eof : Bool
  source : Source α
  room : buf.length ≤ size
  ended : eof = true → source.pieces = []

namespace Reader

variable {size : Nat}

/-- `NewReaderSize`. -/
def new (size : Nat) (source : Source α) : Reader α size where
  buf := []
  eof := false
  source := source
  room := Nat.zero_le _
  ended h := by cases h

/-- All that is left to be read. -/
def left (r : Reader α size) : List α :=
  r.buf ++ r.source.rest

/-- Skip the first elements of the buffer. -/
def skip (r : Reader α size) (n : Nat) : Reader α size :=
  { r with
    buf := r.buf.drop n
    room := by
      have hroom := r.room
      rw [length_drop]
      omega }

/-- `readErr` with an empty buffer: the error is reported once. -/
def settled (r : Reader α size) : Reader α size where
  buf := []
  eof := false
  source := r.source
  room := Nat.zero_le _
  ended h := by cases h

/-- `fill`. -/
def fill (r : Reader α size) : Reader α size where
  buf := r.buf ++ (r.source.read (size - r.buf.length)).1
  eof := (r.source.read (size - r.buf.length)).2.1
  source := (r.source.read (size - r.buf.length)).2.2
  room := by
    have hlength := (r.source.reads_read (size - r.buf.length)).length_le
    have hroom := r.room
    rw [length_append]
    omega
  ended := (r.source.reads_read (size - r.buf.length)).ended

variable {n : Nat} {r : Reader α size}

theorem left_skip (r : Reader α size) (hn : n ≤ r.buf.length) :
    (r.skip n).left = r.left.drop n := by
  rw [left, left, drop_append_of_le_length hn]
  rfl

theorem left_fill (r : Reader α size) : r.fill.left = r.left := by
  have hsplit := (r.source.reads_read (size - r.buf.length)).split
  rw [left, left, hsplit, ← append_assoc]
  rfl

theorem fill_progress (r : Reader α size) (hroom : r.buf.length < size) :
    r.fill.eof = true ∨ r.buf.length < r.fill.buf.length := by
  have hreads := r.source.reads_read (size - r.buf.length)
  by_cases hdata : (r.source.read (size - r.buf.length)).1 = []
  · exact .inl (hreads.progress (by omega) hdata)
  · right
    have hpos := length_pos_of_ne_nil hdata
    change _ < (r.buf ++ _).length
    rw [length_append]
    omega

theorem left_of_eof (h : r.eof = true) : r.left = r.buf := by
  rw [left, Source.rest, r.ended h, flatten_nil, append_nil]

/-! ### Single elements -/

/-- `ReadByte`; nothing at the end.  A fill gets an element or the end, so the loop of the source
runs at most twice. -/
def readByte (r : Reader α size) : Option (α × Reader α size) :=
  match r.buf with
  | first :: _ => some (first, r.skip 1)
  | [] =>
    if r.eof then none
    else
      match r.fill.buf with
      | first :: _ => some (first, r.fill.skip 1)
      | [] => none

theorem readByte_nil (h : r.left = []) : r.readByte = none := by
  have hbuf : r.buf = [] := (append_eq_nil_iff.mp h).1
  have hfill : r.fill.buf = [] := (append_eq_nil_iff.mp (r.left_fill.trans h)).1
  unfold readByte
  rw [hbuf, hfill]
  simp

theorem readByte_cons (hsize : 0 < size) {first : α} {rest : List α}
    (h : r.left = first :: rest) : ∃ r', r.readByte = some (first, r') ∧ r'.left = rest := by
  unfold readByte
  cases hbuf : r.buf with
  | cons b buf =>
    have hb : b = first := by
      rw [left, hbuf] at h
      exact (List.cons.inj h).1
    refine ⟨r.skip 1, by rw [hb], ?_⟩
    rw [left_skip r (by rw [hbuf]; exact Nat.succ_pos _), h]
    rfl
  | nil =>
    have heof : r.eof = false := by
      refine Bool.eq_false_iff.mpr fun heof => ?_
      rw [left_of_eof heof, hbuf] at h
      cases h
    have hleft := r.left_fill.trans h
    simp only [heof, Bool.false_eq_true, if_false]
    cases hfill : r.fill.buf with
    | cons b buf =>
      have hb : b = first := by
        rw [left, hfill] at hleft
        exact (List.cons.inj hleft).1
      refine ⟨r.fill.skip 1, by rw [hb], ?_⟩
      rw [left_skip _ (by rw [hfill]; exact Nat.succ_pos _), hleft]
      rfl
    | nil =>
      -- an empty buffer after a fill means the end
      rcases r.fill_progress (by rw [hbuf]; exact hsize) with hend | hgrew
      · rw [left_of_eof hend, hfill] at hleft
        cases hleft
      · rw [hfill] at hgrew
        exact absurd hgrew (Nat.not_lt_zero _)

/-! ### Up to a delimiter -/

/-- How `ReadSlice` ended. -/
inductive SliceEnd where
  | delimiter
  | bufferFull
  | eof
  deriving DecidableEq, Repr

/-- What `ReadSlice` answers without another fill. -/
def sliceNow (delim : α → Bool) (r : Reader α size) : Option (List α × SliceEnd × Reader α size) :=
  match r.buf.findIdx? delim with
  | some index => some (r.buf.take (index + 1), .delimiter, r.skip (index + 1))
  | none =>
    if r.eof then some (r.buf, .eof, r.settled)
    else if size ≤ r.buf.length then some (r.buf, .bufferFull, r.skip r.buf.length)
    else none

/-- The loop of `ReadSlice`; the fuel is the number of fills. -/
def readSliceLoop (delim : α → Bool) : Nat → Reader α size → List α × SliceEnd × Reader α size
  | 0, r => (r.sliceNow delim).getD (r.buf, .eof, r)
  | fuel + 1, r => (r.sliceNow delim).getD (readSliceLoop delim fuel r.fill)

/-- `ReadSlice`: each fill but the last gets an element of the buffer. -/
def readSlice (delim : α → Bool) (r : Reader α size) : List α × SliceEnd × Reader α size :=
  readSliceLoop delim (size + 1) r

/-- **What `ReadSlice` may answer**, as far as what is left determines it. -/
inductive Slices (size : Nat) (delim : α → Bool) (x : List α) : List α → SliceEnd → List α → Prop
  | delimiter {line rest : List α} {d : α} (hx : x = line ++ d :: rest) (hd : delim d = true)
    (hline : ∀ b ∈ line, delim b = false) (hlength : line.length < size) :
    Slices size delim x (line ++ [d]) .delimiter rest
  | bufferFull {full rest : List α} (hx : x = full ++ rest) (hfull : ∀ b ∈ full, delim b = false)
    (hlength : full.length = size) : Slices size delim x full .bufferFull rest
  | eof (hx : ∀ b ∈ x, delim b = false) (hlength : x.length ≤ size) : Slices size delim x x .eof []

theorem exists_split_of_findIdx? {p : α → Bool} {l : List α} {index : Nat}
    (h : l.findIdx? p = some index) : ∃ line d tail, l = line ++ d :: tail ∧ line.length = index ∧
      p d = true ∧ ∀ b ∈ line, p b = false := by
  induction l generalizing index with
  | nil => cases h
  | cons first l ih =>
    rw [List.findIdx?_cons] at h
    by_cases hfirst : p first = true
    · rw [if_pos hfirst] at h
      cases h
      exact ⟨[], first, l, rfl, rfl, hfirst, fun _ hb => absurd hb not_mem_nil⟩
    · rw [if_neg hfirst] at h
      obtain ⟨index', hindex, rfl⟩ := Option.map_eq_some_iff.mp h
      obtain ⟨line, d, tail, rfl, rfl, hd, hline⟩ := ih hindex
      refine ⟨first :: line, d, tail, rfl, rfl, hd, fun b hb => ?_⟩
      rcases mem_cons.mp hb with rfl | hb
      · exact Bool.eq_false_iff.mpr hfirst
      · exact hline b hb

theorem slices_sliceNow {delim : α → Bool} {r' : Reader α size} {line : List α}
    {ending : SliceEnd}
    (h : r.sliceNow delim = some (line, ending, r')) : Slices size delim r.left line ending r'.left := by
  have hroom := r.room
  unfold sliceNow at h
  cases hfind : r.buf.findIdx? delim with
  | some index =>
    rw [hfind] at h
    obtain ⟨before, d, tail, hbuf, hindex, hd, hbefore⟩ := exists_split_of_findIdx? hfind
    have hlength : index + 1 ≤ r.buf.length := by
      rw [hbuf, length_append, length_cons]
      omega
    have htake : r.buf.take (index + 1) = before ++ [d] := by
      rw [hbuf, take_append, ← hindex, take_of_length_le (Nat.le_succ _),
        Nat.add_sub_cancel_left]
      rfl
    have hleft : r.left = before ++ d :: (r.skip (index + 1)).left := by
      rw [left_skip r hlength]
      have hsplit := take_append_drop (index + 1) r.left
      rw [left, take_append_of_le_length hlength, htake, append_assoc] at hsplit
      exact hsplit.symm
    cases h
    rw [htake]
    exact .delimiter hleft hd hbefore (by omega)
  | none =>
    rw [hfind] at h
    have hnone : ∀ b ∈ r.buf, delim b = false := fun b hb => List.findIdx?_eq_none_iff.mp hfind b hb
    by_cases heof : r.eof = true
    · simp only [heof, if_true] at h
      cases h
      have hpieces : r.settled.left = [] := by
        rw [left, settled, Source.rest, r.ended heof]
        rfl
      rw [hpieces, left_of_eof heof]
      exact .eof hnone hroom
    · by_cases hfull : size ≤ r.buf.length
      · simp only [if_neg heof, if_pos hfull] at h
        cases h
        refine .bufferFull ?_ hnone (by omega)
        rw [left_skip r (Nat.le_refl _), left, drop_left]
      · simp only [if_neg heof, if_neg hfull] at h
        cases h

theorem sliceNow_none {delim : α → Bool} (h : r.sliceNow delim = none) :
    r.eof = false ∧ r.buf.length < size := by
  unfold sliceNow at h
  cases hfind : r.buf.findIdx? delim with
  | some index =>
    rw [hfind] at h
    cases h
  | none =>
    rw [hfind] at h
    by_cases heof : r.eof = true
    · simp only [heof, if_true] at h
      cases h
    · by_cases hfull : size ≤ r.buf.length
      · simp only [if_neg heof, if_pos hfull] at h
        cases h
      · exact ⟨Bool.eq_false_iff.mpr heof, by omega⟩

/-- The loop has an answer after at most one fill for each free place, and one for the end. -/
theorem slices_readSliceLoop (delim : α → Bool) (fuel : Nat) (r : Reader α size)
    (hfuel : r.eof = true ∨ size - r.buf.length ≤ fuel) :
    Slices size delim r.left (readSliceLoop delim fuel r).1 (readSliceLoop delim fuel r).2.1
      (readSliceLoop delim fuel r).2.2.left := by
  induction fuel generalizing r with
  | zero =>
    cases hnow : r.sliceNow delim with
    | some answer =>
      rw [readSliceLoop, hnow]
      exact slices_sliceNow hnow
    | none =>
      obtain ⟨heof, hroom⟩ := sliceNow_none hnow
      rcases hfuel with hend | hzero
      · rw [heof] at hend
        cases hend
      · omega
  | succ fuel ih =>
    cases hnow : r.sliceNow delim with
    | some answer =>
      rw [readSliceLoop, hnow]
      exact slices_sliceNow hnow
    | none =>
      obtain ⟨heof, hroom⟩ := sliceNow_none hnow
      rw [readSliceLoop, hnow, ← r.left_fill]
      refine ih r.fill ?_
      rcases r.fill_progress hroom with hend | hgrew
      · exact .inl hend
      · rcases hfuel with hend | hlt
        · rw [heof] at hend
          cases hend
        · exact .inr (by omega)

theorem slices_readSlice (delim : α → Bool) (r : Reader α size) :
    Slices size delim r.left (r.readSlice delim).1 (r.readSlice delim).2.1
      (r.readSlice delim).2.2.left :=
  slices_readSliceLoop delim (size + 1) r (.inr (by omega))

/-! ### A given number of elements -/

/-- `Read` into a slice of length `n`, which is not zero: the data, whether the end is reported, and
the reader after it.  A large read into an empty buffer passes the buffer by. -/
def read (r : Reader α size) (n : Nat) : List α × Bool × Reader α size :=
  if r.buf = [] then
    if r.eof then ([], true, r.settled)
    else if size ≤ n then
      ((r.source.read n).1, (r.source.read n).2.1,
        { r.settled with source := (r.source.read n).2.2, ended := fun h => by cases h })
    else if r.fill.buf = [] then ([], r.fill.eof, r.fill.settled)
    else (r.fill.buf.take n, false, r.fill.skip (min n r.fill.buf.length))
  else (r.buf.take n, false, r.skip (min n r.buf.length))

theorem take_skip_spec (r : Reader α size) (hbuf : r.buf ≠ []) (hn : 0 < n) :
    r.left = r.buf.take n ++ (r.skip (min n r.buf.length)).left ∧ r.buf.take n ≠ [] := by
  refine ⟨?_, fun hnil => ?_⟩
  · rw [left_skip r (Nat.min_le_right _ _)]
    by_cases hle : n ≤ r.buf.length
    · rw [Nat.min_eq_left hle, ← take_append_drop n r.left]
      simp only [left, take_append_of_le_length hle, drop_append_of_le_length hle,
        drop_left' (length_take_of_le hle)]
    · rw [Nat.min_eq_right (by omega), left, drop_left, take_of_length_le (by omega)]
  · rcases take_eq_nil_iff.mp hnil with hzero | hempty
    · omega
    · exact hbuf hempty

/-- **What a call of `Read` does.** -/
structure Gets (r : Reader α size) (n : Nat) (data : List α) (eof : Bool) (r' : Reader α size) :
    Prop where
  split : r.left = data ++ r'.left
  length_le : data.length ≤ n
  progress : data = [] → eof = true
  ended : eof = true → r'.left = []

theorem gets_read (hsize : 0 < size) (r : Reader α size) (hn : 0 < n) :
    Gets r n (r.read n).1 (r.read n).2.1 (r.read n).2.2 := by
  unfold read
  by_cases hbuf : r.buf = []
  · by_cases heof : r.eof = true
    · have hnil : r.settled.left = [] := by
        rw [left, settled, Source.rest, r.ended heof]
        rfl
      simp only [if_pos hbuf, if_pos heof]
      exact ⟨by rw [left_of_eof heof, hbuf, hnil]; rfl, Nat.zero_le _, fun _ => rfl, fun _ => hnil⟩
    · by_cases hlarge : size ≤ n
      · have hreads := r.source.reads_read n
        simp only [if_pos hbuf, if_neg heof, if_pos hlarge]
        refine ⟨?_, hreads.length_le, hreads.progress hn, fun hend => ?_⟩
        · rw [left, hbuf, nil_append, hreads.split]
          rfl
        · rw [left, Source.rest, hreads.ended hend]
          rfl
      · by_cases hfill : r.fill.buf = []
        · have hend : r.fill.eof = true := by
            rcases r.fill_progress (by rw [hbuf]; exact hsize) with hend | hgrew
            · exact hend
            · rw [hfill] at hgrew
              exact absurd hgrew (Nat.not_lt_zero _)
          have hnil : r.fill.settled.left = [] := by
            rw [left, settled, Source.rest, r.fill.ended hend]
            rfl
          simp only [if_pos hbuf, if_neg heof, if_neg hlarge, if_pos hfill]
          refine ⟨?_, Nat.zero_le _, fun _ => hend, fun _ => hnil⟩
          rw [← r.left_fill, left_of_eof hend, hfill, hnil]
          rfl
        · obtain ⟨hsplit, hne⟩ := r.fill.take_skip_spec hfill hn
          simp only [if_pos hbuf, if_neg heof, if_neg hlarge, if_neg hfill]
          exact ⟨by rw [← r.left_fill]; exact hsplit, length_take_le _ _,
            fun hnil => absurd hnil hne, fun hend => by cases hend⟩
  · obtain ⟨hsplit, hne⟩ := r.take_skip_spec hbuf hn
    simp only [if_neg hbuf]
    exact ⟨hsplit, length_take_le _ _, fun hnil => absurd hnil hne, fun hend => by cases hend⟩

/-- The loop of `io.ReadFull`: at most as many calls of `Read` as elements are asked for. -/
def readFullLoop : Nat → Nat → Reader α size → List α × Reader α size
  | 0, _, r => ([], r)
  | fuel + 1, n, r =>
    if n = 0 then ([], r)
    else
      let got := r.read n
      if got.2.1 then (got.1, got.2.2)
      else
        let more := readFullLoop fuel (n - got.1.length) got.2.2
        (got.1 ++ more.1, more.2)

/-- **`io.ReadFull` gets as much as there is.** -/
theorem readFullLoop_spec (hsize : 0 < size) (fuel n : Nat) (hfuel : n ≤ fuel) (r : Reader α size) :
    (readFullLoop fuel n r).1 = r.left.take n ∧ (readFullLoop fuel n r).2.left = r.left.drop n := by
  induction fuel generalizing n r with
  | zero =>
    obtain rfl : n = 0 := by omega
    exact ⟨rfl, rfl⟩
  | succ fuel ih =>
    unfold readFullLoop
    by_cases hn : n = 0
    · subst hn
      exact ⟨rfl, rfl⟩
    · have hgets := gets_read hsize r (Nat.pos_of_ne_zero hn)
      have hle := hgets.length_le
      have hsplit := hgets.split
      simp only [if_neg hn]
      by_cases hend : (r.read n).2.1 = true
      · rw [if_pos hend, hsplit, hgets.ended hend, append_nil, take_of_length_le hle,
          drop_of_length_le hle]
        exact ⟨rfl, rfl⟩
      · have hdata : (r.read n).1 ≠ [] := fun hnil => hend (hgets.progress hnil)
        have hpos := length_pos_of_ne_nil hdata
        obtain ⟨htake, hdrop⟩ := ih (n - (r.read n).1.length) (by omega) (r.read n).2.2
        rw [if_neg hend]
        refine ⟨?_, ?_⟩
        · rw [htake, hsplit, take_append, take_of_length_le hle]
        · rw [hdrop, hsplit, drop_append, drop_of_length_le hle, nil_append]

end Reader

end Bufio
