import Stash.AofLoader

/-!
# Loading a file that was cut off

A file of command frames that is cut anywhere loads without an error, and exactly the frames before
the cut are replayed (`loadFile_cut`): a part of a frame always asks the parser for more, and the
loader takes such an error for the end of the file.  Whether the loss is reported depends on where
the cut is (`loadFile_reports_iff`).
-/

namespace Stash

open DecimalText List Value

/-! ## Cut frames -/

/-- The cut falls into the first value that does not end before it, and there `inside` holds. -/
def CutInside (inside : Value → Nat → Prop) : List Value → Nat → Prop
  | [], _ => False
  | value :: rest, k =>
    if value.encode.length ≤ k then CutInside inside rest (k - value.encode.length)
    else inside value k

/-- A part of the payload of a bulk string is there, but not all of it. -/
def InsidePayload : Value → Nat → Prop
  | .bulkString data isNull, k | .textBulkString data isNull, k =>
    isNull = false ∧ (appendPrefixedIntLine 36 data.length).length < k ∧
      k < (appendPrefixedIntLine 36 data.length).length + data.length
  | _, _ => False

/-- The cut of a command frame falls into a payload. -/
def InsideFrame : Value → Nat → Prop
  | .array elements _, k => (appendPrefixedIntLine 42 elements.length).length ≤ k ∧
    CutInside InsidePayload elements (k - (appendPrefixedIntLine 42 elements.length).length)
  | _, _ => False

/-- The frame is cut off, and the error is another one than `io.EOF` just in this case. -/
def TornUnless {α : Type} (result : Except ParseError α) (p : Prop) : Prop :=
  ∃ err, result = .error err ∧ isRecoverableTruncation err = true ∧
    (ParseError.is .eof err = false ↔ p)

variable {α : Type} {p : Prop} {k : Nat}

theorem TornUnless.wrap {result : Except ParseError α} (h : TornUnless result p)
    (context : ErrorContext) : TornUnless (result.mapError (.wrap context)) p := by
  obtain ⟨err, rfl, hrec, hiff⟩ := h
  exact ⟨_, rfl, by rwa [recoverable_wrap], hiff⟩

theorem TornUnless.bind {β : Type} {result : Except ParseError α}
    (h : TornUnless result p) (next : α → Except ParseError β) : TornUnless (result >>= next) p := by
  obtain ⟨err, rfl, hrec⟩ := h
  exact ⟨_, rfl, hrec⟩

theorem tornUnless_eof (hp : ¬p) : TornUnless (.error .eof : Except ParseError α) p :=
  ⟨.eof, rfl, rfl, iff_of_false (by decide) hp⟩

theorem parseValue_dollar (levels : Nat) (input : Bytes) :
    parseValue levels (36 :: input) = parseBulkString input := by
  rw [parseValue]

/-- A header line that is cut ends in `io.EOF`; one that is whole is read. -/
theorem readLength_cut (context : ErrorContext) {n : Nat} (hn : n < 2 ^ 63) (marker : UInt8)
    (body : Bytes) {k : Nat} :
    readLength context ((formatInt n ++ (crlf ++ body)).take k) =
      if k + 1 < (appendPrefixedIntLine marker n).length then .error .eof
      else .ok ((n : Int), body.take (k + 1 - (appendPrefixedIntLine marker n).length)) := by
  have hheader : (appendPrefixedIntLine marker n).length = (formatInt n).length + 3 := by
    simp [appendPrefixedIntLine, crlf]
  rw [hheader]
  split
  · rename_i hk
    have hsplit : formatInt n ++ (crlf ++ body) = (formatInt n ++ [13]) ++ 10 :: body := by
      simp [crlf]
    have hfree : 10 ∉ (formatInt n ++ [13]).take k := fun hmem => by
      simpa [newline_notMem_formatInt n] using mem_of_mem_take hmem
    have hlen := @length_formatInt_le n 20 (by omega) (by rw [Int.natAbs_natCast]; omega)
    have hmax : maxOpenLine = 69632 := rfl
    rw [hsplit, take_append_of_le_length (by simp; omega), readLength, readLineBytes_open_eq hfree,
      if_pos (by rw [length_take, length_append]; simp; omega)]
    rfl
  · rename_i hk
    rw [← append_assoc, take_append, take_of_length_le (by simp [crlf]; omega), append_assoc,
      readLength_formatInt context _ hn]
    congr 3
    simp [crlf]

theorem bulkString_cut {data : Bytes} (hdata : data.length ≤ maxBulkStringLength)
    (hk : k < (encodeBulk data).length) (levels : Nat) :
    TornUnless (parseValue levels ((encodeBulk data).take k))
      ((appendPrefixedIntLine 36 data.length).length < k ∧
        k < (appendPrefixedIntLine 36 data.length).length + data.length) := by
  have hmax : maxBulkStringLength = 536870912 := rfl
  cases k with
  | zero =>
    rw [take_zero, parseValue_nil]
    exact tornUnless_eof (by omega)
  | succ k =>
    have hbytes : encodeBulk data = 36 :: (formatInt data.length ++ (crlf ++ (data ++ crlf))) := by
      simp [encodeBulk, appendPrefixedIntLine]
    have hlength := @readLength_cut .bulkLength data.length (by omega) 36 (data ++ crlf) k
    have hsize : (encodeBulk data).length =
        (appendPrefixedIntLine 36 data.length).length + (data.length + 2) := by
      simp [encodeBulk, crlf]
    generalize (appendPrefixedIntLine 36 data.length).length = header at hlength hsize ⊢
    rw [hbytes, take_succ_cons, parseValue_dollar]
    by_cases hheader : k + 1 < header
    · rw [if_pos hheader] at hlength
      rw [parseBulkString, hlength]
      exact tornUnless_eof (by omega)
    rw [if_neg hheader] at hlength
    rw [parseBulkString_of_length hlength, if_pos hdata]
    by_cases hshort : k + 1 - header < data.length
    · -- `io.ReadFull` tells nothing from something
      rw [take_append_of_le_length (by omega), readFull, if_neg (by rw [length_take]; omega)]
      by_cases hnone : k + 1 = header
      · rw [hnone, Nat.sub_self, take_zero, if_pos rfl]
        exact ((tornUnless_eof (by omega)).wrap _).bind _
      · rw [if_neg (by rw [take_eq_nil_iff, ← length_eq_zero_iff]; omega)]
        exact ⟨_, rfl, rfl, iff_of_true rfl (by omega)⟩
    · rw [take_append, take_of_length_le (by omega), readFull_append]
      have hend : ∀ r < 2, expectCRLF (crlf.take r) = .error .eof := by decide
      change TornUnless ((expectCRLF _).mapError _ >>= _) _
      rw [hend _ (by omega)]
      exact ((tornUnless_eof (by omega)).wrap _).bind _

theorem BulkWithin.cut {e : Value} (h : BulkWithin e) (hk : k < e.encode.length)
    (levels : Nat) : TornUnless (parseValue levels (e.encode.take k)) (InsidePayload e k) := by
  cases e with
  | bulkString data isNull | textBulkString data isNull =>
    cases isNull with
    | true =>
      have hnull : ∀ k < 5, parseValue levels ((ascii "$-1\r\n").take k) = .error .eof := by
        rintro (_ | k) hk
        · exact parseValue_nil levels
        · refine (parseValue_dollar levels _).trans ?_
          have hk' : k < 4 := by omega
          interval_cases k <;> rfl
      change TornUnless (parseValue levels ((ascii "$-1\r\n").take k)) _
      rw [hnull k hk]
      exact tornUnless_eof fun h => by cases h.1
    | false =>
      obtain ⟨err, herr, hrec, hiff⟩ := bulkString_cut (h.resolve_left (by decide)) hk levels
      exact ⟨err, herr, hrec, hiff.trans ⟨fun h => ⟨rfl, h⟩, fun h => h.2⟩⟩
  | _ => exact h.elim

theorem parseElements_cut (levels : Nat) {elements : List Value} (h : ∀ e ∈ elements, BulkWithin e) (hk : k < (encodeValues elements).length) (index : Nat) :
    TornUnless (parseElements (parseValue levels) elements.length index ((encodeValues elements).take k))
      (CutInside InsidePayload elements k) := by
  induction elements generalizing k index with
  | nil => cases hk
  | cons e elements ih =>
    have he := h e mem_cons_self
    rw [encodeValues, length_append] at hk
    rw [encodeValues, length_cons, parseElements, CutInside]
    by_cases hwhole : e.encode.length ≤ k
    · rw [if_pos hwhole, take_append, take_of_length_le hwhole, he.parse levels]
      exact (ih (fun e' he' => h e' (mem_cons_of_mem _ he')) (by omega) (index + 1)).bind _
    · rw [if_neg hwhole, take_append_of_le_length (by omega)]
      exact ((he.cut (by omega) levels).wrap _).bind _

theorem CommandFrame.cut {frame : Value} (h : CommandFrame frame) (hk : k < frame.encode.length) :
    TornUnless (Stash.parse (frame.encode.take k)) (InsideFrame frame k) := by
  obtain ⟨elements, rfl, hcount, hbulks⟩ := h
  have hmax : maxArrayElements = 1048576 := rfl
  have hencode : (Value.array elements false).encode =
      42 :: (formatInt elements.length ++ (crlf ++ encodeValues elements)) := by
    simp [encode, appendPrefixedIntLine]
  have hsize : (Value.array elements false).encode.length =
      (appendPrefixedIntLine 42 elements.length).length + (encodeValues elements).length := by
    simp [encode]
  unfold InsideFrame
  cases k with
  | zero =>
    rw [take_zero, Stash.parse, parseValue_nil]
    exact tornUnless_eof (by simp [appendPrefixedIntLine])
  | succ k =>
    have hlength := @readLength_cut .arrayLength elements.length (by omega) 42
      (encodeValues elements) k
    rw [hencode, take_succ_cons]
    simp only
    change TornUnless (parseArray (parseValue 127) _) _
    by_cases hheader : k + 1 < (appendPrefixedIntLine 42 elements.length).length
    · rw [if_pos hheader] at hlength
      rw [parseArray, hlength]
      exact tornUnless_eof (by omega)
    · rw [if_neg hheader] at hlength
      rw [parseArray_of_length hlength, if_pos hcount]
      obtain ⟨err, herr, hrec, hiff⟩ := parseElements_cut 127 hbulks
        (k := k + 1 - (appendPrefixedIntLine 42 elements.length).length) (by omega) 0
      exact ⟨err, by rw [herr]; rfl, hrec, hiff.trans ⟨fun h => ⟨by omega, h⟩, fun h => h.2⟩⟩

/-! ## Cut files -/

/-- The frames that end within the first `k` bytes. -/
def completeWithin : List Value → Nat → List Value
  | [], _ => []
  | frame :: frames, k =>
    if frame.encode.length ≤ k then frame :: completeWithin frames (k - frame.encode.length) else []

section Load

variable {σ ε : Type} {replay : σ → Value → σ × Option ε}

/-- A value that is read goes to a callback that accepts everything. -/
theorem loadLoop_accept (haccept : ∀ state value, (replay state value).2 = none) {stats : LoadStats}
    {state : σ} {input rest : Bytes} {value : Value} (h : parse input = .ok (value, rest)) :
    loadLoop replay stats state input =
      loadLoop replay { stats with replayedCommands := stats.replayedCommands + 1 }
        (replay state value).1 rest := by
  rw [loadLoop_of_ok replay h]
  have hnone := haccept state value
  generalize replay state value = answer at hnone
  obtain ⟨state', failed⟩ := answer
  cases hnone
  rfl

/-- A truncation ends the load where it is. -/
theorem loadLoop_truncated {stats : LoadStats} {state : σ} {input : Bytes} {err : ParseError}
    (h : parse input = .error err) (htruncated : isRecoverableTruncation err = true) :
    (loadLoop replay stats state input).err = none ∧
      (loadLoop replay stats state input).state = state ∧
      (loadLoop replay stats state input).stats.replayedCommands = stats.replayedCommands := by
  rw [loadLoop_of_error replay h]
  rw [if_pos htruncated]
  split
  · exact ⟨rfl, rfl, rfl⟩
  · exact ⟨rfl, rfl, rfl⟩

theorem loadLoop_cut (haccept : ∀ state value, (replay state value).2 = none) {frames : List Value}
    (hframes : ∀ frame ∈ frames, CommandFrame frame) (k : Nat) (stats : LoadStats) (state : σ) :
    (loadLoop replay stats state ((encodeValues frames).take k)).err = none ∧
      (loadLoop replay stats state ((encodeValues frames).take k)).state =
        ((completeWithin frames k).map Value.norm).foldl (fun s v => (replay s v).1) state ∧
      (loadLoop replay stats state ((encodeValues frames).take k)).stats.replayedCommands =
        stats.replayedCommands + (completeWithin frames k).length := by
  induction frames generalizing k stats state with
  | nil =>
    rw [encodeValues, take_nil]
    exact loadLoop_truncated (parseValue_nil _) rfl
  | cons frame frames ih =>
    have hframe := hframes frame mem_cons_self
    rw [encodeValues, completeWithin]
    by_cases hk : frame.encode.length ≤ k
    · -- the frame is whole, and the load goes on behind it
      rw [if_pos hk, take_append, take_of_length_le hk, loadLoop_accept haccept (hframe.parse _)]
      obtain ⟨herr, hstate, hcount⟩ := ih (fun f hf => hframes f (mem_cons_of_mem _ hf))
        (k - frame.encode.length) { stats with replayedCommands := stats.replayedCommands + 1 }
        (replay state frame.norm).1
      refine ⟨herr, hstate, ?_⟩
      rw [hcount, length_cons, Nat.add_assoc, Nat.add_comm 1]
    · -- the frame is cut
      rw [if_neg hk, take_append_of_le_length (by omega)]
      obtain ⟨err, herr, hretry, -⟩ := hframe.cut (k := k) (by omega)
      exact loadLoop_truncated herr hretry

/-- **A file of command frames that is cut anywhere loads without an error**, and the callback is
called exactly on the frames that are complete, in order. -/
theorem loadFile_cut (haccept : ∀ state value, (replay state value).2 = none)
    (frames : List Value) (hframes : ∀ frame ∈ frames, CommandFrame frame) (k : Nat) (state : σ) :
    (loadFile replay state ((encodeValues frames).take k)).err = none ∧
      (loadFile replay state ((encodeValues frames).take k)).state =
        ((completeWithin frames k).map Value.norm).foldl (fun s v => (replay s v).1) state ∧
      (loadFile replay state ((encodeValues frames).take k)).stats.replayedCommands =
        (completeWithin frames k).length := by
  obtain ⟨herr, hstate, hcount⟩ := loadLoop_cut haccept hframes k ⟨0, false⟩ state
  exact ⟨herr, hstate, by rw [loadFile, hcount, Nat.zero_add]⟩

/-- `SET k v` and the first four bytes of a PING, recorded. -/
theorem loadFile_cut_ping :
    (loadFile recordValue [] ((encodeValues
      [commandFrame [ascii "SET", ascii "k", ascii "v"], commandFrame [ascii "PING"]]).take 31)).state =
        [commandFrame [ascii "SET", ascii "k", ascii "v"]] := by
  have hframes : ∀ frame ∈ [commandFrame [ascii "SET", ascii "k", ascii "v"],
      commandFrame [ascii "PING"]], CommandFrame frame := by
    intro frame hframe
    rcases mem_pair.mp hframe with rfl | rfl
    · exact commandFrame_within (by decide)
    · exact commandFrame_within (by decide)
  rw [(loadFile_cut (fun _ _ => rfl) _ hframes 31 []).2.1]
  have hwithin : completeWithin [commandFrame [ascii "SET", ascii "k", ascii "v"],
      commandFrame [ascii "PING"]] 31 = [commandFrame [ascii "SET", ascii "k", ascii "v"]] := rfl
  rw [hwithin, map_singleton, norm_commandFrame]
  rfl

/-! ### Which cuts are reported -/

theorem loadLoop_reports (haccept : ∀ state value, (replay state value).2 = none)
    {frames : List Value} (hframes : ∀ frame ∈ frames, CommandFrame frame) {k : Nat}
    (hk : k ≤ (encodeValues frames).length) (count : Nat) (state : σ) :
    (loadLoop replay ⟨count, false⟩ state ((encodeValues frames).take k)).stats.truncatedTail = true ↔
      CutInside InsideFrame frames k := by
  induction frames generalizing k count state with
  | nil =>
    rw [encodeValues, take_nil, loadLoop_of_error replay (parseValue_nil _)]
    exact iff_of_false Bool.false_ne_true id
  | cons frame frames ih =>
    have hframe := hframes frame mem_cons_self
    rw [encodeValues, length_append] at hk
    rw [encodeValues, CutInside]
    by_cases hwhole : frame.encode.length ≤ k
    · rw [if_pos hwhole, take_append, take_of_length_le hwhole, loadLoop_accept haccept (hframe.parse _)]
      exact ih (fun f hf => hframes f (mem_cons_of_mem _ hf)) (by omega) _ _
    · rw [if_neg hwhole, take_append_of_le_length (by omega)]
      obtain ⟨err, herr, hrec, hiff⟩ := hframe.cut (k := k) (by omega)
      rw [loadLoop_of_error replay herr, ← hiff, if_pos hrec]
      cases ParseError.is .eof err <;> simp

/-- A position between two frames, or at an end of the file. -/
def FrameBoundary (frames : List Value) (k : Nat) : Prop :=
  ∃ n, k = (encodeValues (frames.take n)).length

theorem not_boundary_of_cutInside {frames : List Value} {k : Nat}
    (h : CutInside InsideFrame frames k) : ¬FrameBoundary frames k := by
  induction frames generalizing k with
  | nil => exact h.elim
  | cons frame frames ih =>
    rintro ⟨n, hn⟩
    have hpos := encodedLen_pos frame
    rw [← length_encode] at hpos
    rw [CutInside] at h
    cases n with
    | zero =>
      obtain rfl : k = 0 := hn
      rw [if_neg (by omega)] at h
      unfold InsideFrame at h
      split at h
      · simp [appendPrefixedIntLine] at h
      · exact h
    | succ n =>
      rw [take_succ_cons, encodeValues, length_append] at hn
      rw [if_pos (by omega)] at h
      exact ih h ⟨n, by omega⟩

/-- **Which torn tails are reported.**  The flag says whether the cut is between two frames just at
the positions that are, and inside the payload of a bulk string: in a header, right behind one and in
a terminator the parser meets `io.EOF`, and the loader takes that for the end of the file. -/
theorem loadFile_reports_iff (haccept : ∀ state value, (replay state value).2 = none)
    (frames : List Value) (hframes : ∀ frame ∈ frames, CommandFrame frame) (k : Nat)
    (hk : k ≤ (encodeValues frames).length) (state : σ) :
    ((loadFile replay state ((encodeValues frames).take k)).stats.truncatedTail = true ↔
      ¬FrameBoundary frames k) ↔
    FrameBoundary frames k ∨ CutInside InsideFrame frames k := by
  rw [loadFile, loadLoop_reports haccept hframes hk]
  have hdisjoint := @not_boundary_of_cutInside frames k
  tauto

/-- A PING of which four bytes are missing, two of them of its payload. -/
theorem loadFile_reports_payload :
    (loadFile recordValue [] ((encodeValues [commandFrame [ascii "PING"]]).take 10)).stats.truncatedTail =
      true ↔ ¬FrameBoundary [commandFrame [ascii "PING"]] 10 := by
  have hframes : ∀ frame ∈ [commandFrame [ascii "PING"]], CommandFrame frame := by
    intro frame hframe
    rcases mem_singleton.mp hframe with rfl
    exact commandFrame_within (by decide)
  refine (loadFile_reports_iff (fun _ _ => rfl) _ hframes 10 (by decide) []).mpr (.inr ?_)
  exact ⟨by decide, rfl, by decide, by decide⟩

/-- Two bytes of a PING are dropped in silence. -/
theorem loadFile_silent_cut :
    (loadFile recordValue [] ((encodeValues [commandFrame [ascii "PING"]]).take 2)).stats.truncatedTail =
      false ∧ ¬FrameBoundary [commandFrame [ascii "PING"]] 2 := by
  have hparse : parse ((encodeValues [commandFrame [ascii "PING"]]).take 2) = .error .eof := rfl
  refine ⟨by rw [loadFile, loadLoop_of_error recordValue hparse]; rfl, ?_⟩
  rintro ⟨_ | n, hn⟩
  · cases hn
  · rw [take_succ_cons, take_nil] at hn
    exact absurd hn (by decide)

end Load

end Stash
