import Stash.TornTail

/-!
# Files that are spoiled, not torn

The loader also takes a wrong terminator for the end of the file, and does not look at the text of a
line before its end.  A tail is spoiled when it contains such a place: a line that ends in a bare
newline, a payload that is not followed by CRLF, or an unfinished line whose text cannot be the
beginning of a line the parser accepts.  A load succeeds on spoiled files, which no further bytes
could complete, and those are the only ones (`loadFile_torn_iff`).
-/

namespace Stash

open DecimalText Incremental List

/-! ## Lines -/

/-- What a line is read for. -/
inductive LineKind where
  | text
  | integer
  | bulkLength
  | arrayLength
  | boolean
  | null
  deriving DecidableEq, Repr

namespace LineKind

/-- The numbers a line may hold, if it holds a number. -/
def Allows : LineKind → Int → Prop
  | bulkLength, n => -1 ≤ n ∧ n ≤ maxBulkStringLength
  | arrayLength, n => -1 ≤ n ∧ n ≤ maxArrayElements
  | _, _ => True

/-- The line is accepted. -/
def Accepts : LineKind → Bytes → Prop
  | text, _ => True
  | boolean, line => line = ascii "t" ∨ line = ascii "f"
  | null, line => line = []
  | kind, line => ∃ n, parseDecimalInt line = .ok n ∧ kind.Allows n

/-- Lines that hold a number. -/
def Numeric (kind : LineKind) : Prop :=
  kind = integer ∨ kind = bulkLength ∨ kind = arrayLength

variable {kind : LineKind}

theorem Numeric.accepts_iff (h : kind.Numeric) (line : Bytes) :
    kind.Accepts line ↔ ∃ n, parseDecimalInt line = .ok n ∧ kind.Allows n := by
  rcases h with rfl | rfl | rfl <;> exact Iff.rfl

/-- The numbers a line may hold reach down to zero. -/
theorem allows_front {n m : Int} (h : kind.Allows n)
    (hm : m = 0 ∨ 0 < m ∧ m ≤ n ∨ m < 0 ∧ n ≤ m) : kind.Allows m := by
  cases kind with
  | bulkLength | arrayLength =>
    simp only [Allows] at h ⊢
    omega
  | _ => trivial

/-- The line is a beginning of one that is accepted: nothing at all, a sign, or already one that
is. -/
def Begins (kind : LineKind) (line : Bytes) : Prop :=
  line = [] ∨ kind.Accepts line ∨ kind.Numeric ∧ (line = [43] ∨ line = [45])

theorem begins_of_accepts {line more : Bytes} (h : kind.Accepts (line ++ more)) :
    kind.Begins line := by
  have hnumeric : kind.Numeric → kind.Begins line := by
    intro hkind
    obtain ⟨n, hn, hallows⟩ := (hkind.accepts_iff _).mp h
    obtain ⟨hread, hlo, hhi⟩ := (parseDecimalInt_ok_iff _ n).mp hn
    rcases readInt_front hread with rfl | hplus | hminus | ⟨m, hm, hnear⟩
    · exact .inl rfl
    · exact .inr (.inr ⟨hkind, .inl hplus⟩)
    · exact .inr (.inr ⟨hkind, .inr hminus⟩)
    · refine .inr (.inl ((hkind.accepts_iff line).mpr ⟨m, ?_, allows_front hallows hnear⟩))
      exact (parseDecimalInt_ok_iff line m).mpr ⟨hm, by omega, by omega⟩
  cases kind with
  | text => exact .inr (.inl trivial)
  | integer => exact hnumeric (.inl rfl)
  | bulkLength => exact hnumeric (.inr (.inl rfl))
  | arrayLength => exact hnumeric (.inr (.inr rfl))
  | boolean =>
    cases line with
    | nil => exact .inl rfl
    | cons b line =>
      have hline : line = [] := by
        rcases h with h | h
        · exact (append_eq_nil_iff.mp (List.cons.inj h).2).1
        · exact (append_eq_nil_iff.mp (List.cons.inj h).2).1
      subst hline
      refine .inr (.inl ?_)
      rcases h with h | h
      · exact .inl (by rw [(List.cons.inj h).1]; rfl)
      · exact .inr (by rw [(List.cons.inj h).1]; rfl)
  | null => exact .inl (append_eq_nil_iff.mp h).1

/-- What makes an accepted line of a beginning. -/
theorem Begins.complete {line : Bytes} (h : kind.Begins line)
    (hlen : line.length + 1 < maxOpenLine) :
    ∃ more, 10 ∉ more ∧ kind.Accepts (line ++ more) ∧ (line ++ more).length + 1 < maxOpenLine := by
  have hzero : ∀ kind : LineKind, kind.Allows 0 := by
    intro kind
    cases kind with
    | bulkLength | arrayLength => exact ⟨by omega, by omega⟩
    | _ => trivial
  rcases h with rfl | h | ⟨hkind, rfl | rfl⟩
  · cases kind with
    | text => exact ⟨[], by simp, trivial, hlen⟩
    | integer | bulkLength | arrayLength =>
      exact ⟨ascii "0", by decide, ⟨0, rfl, hzero _⟩, by decide⟩
    | boolean => exact ⟨ascii "t", by decide, .inl rfl, by decide⟩
    | null => exact ⟨[], by simp, rfl, hlen⟩
  · exact ⟨[], by simp, by rwa [append_nil], by rwa [append_nil]⟩
  · exact ⟨ascii "0", by decide, (hkind.accepts_iff _).mpr ⟨0, rfl, hzero kind⟩, by decide⟩
  · exact ⟨ascii "0", by decide, (hkind.accepts_iff _).mpr ⟨0, rfl, hzero kind⟩, by decide⟩

/-- An unfinished line can still become one that is accepted: its text is a beginning of one and
leaves room for the terminator, or only the newline is missing. -/
def Starts (kind : LineKind) (line : Bytes) : Prop :=
  kind.Begins line ∧ line.length + 1 < maxOpenLine ∨ ∃ content, line = content ++ [13] ∧ kind.Accepts content

end LineKind

/-- The input begins with a line that is neither accepted nor refused but wrong: unfinished with a
text that leads nowhere, or ended by a bare newline. -/
inductive SpoiledLine (kind : LineKind) : Bytes → Prop where
  | unfinished {line : Bytes} (noNewline : 10 ∉ line) (short : line.length < maxOpenLine)
    (leadsNowhere : ¬kind.Starts line) : SpoiledLine kind line
  | bareNewline {line : Bytes} (noNewline : 10 ∉ line) (short : line.length < maxOpenLine)
    (bare : line.getLast? ≠ some 13) (rest : Bytes) : SpoiledLine kind (line ++ 10 :: rest)

theorem trimCRLF_bare {line : Bytes} (h : line.getLast? ≠ some 13) :
    trimCRLF (line ++ [10]) = .error .missingCRLF := by
  unfold trimCRLF
  split
  · rename_i content hcontent
    rw [reverse_append] at hcontent
    have hreverse : line.reverse = 13 :: content := (List.cons.inj hcontent).2
    refine absurd ?_ h
    rw [← List.head?_reverse, hreverse]
    rfl
  · rfl

variable {x rest t : Bytes} {kind : LineKind} {err : ParseError} {n : Int}
    {parseOne : Bytes → Except ParseError (Value × Bytes)} {levels : Nat}

/-- The reader of the line asks for more. -/
theorem SpoiledLine.asks (h : SpoiledLine kind x) :
    ∃ err, readLineBytes x = .error err ∧ isRecoverableTruncation err = true := by
  cases h with
  | unfinished noNewline short leadsNowhere =>
    exact ⟨.eof, by rw [readLineBytes_open_eq noNewline, if_pos short], rfl⟩
  | bareNewline noNewline short bare rest =>
    refine ⟨.missingCRLF, ?_, rfl⟩
    rw [readLineBytes_line_eq rest noNewline, if_pos short, trimCRLF_bare bare]
    rfl

/-- What has no newline lies before the first one. -/
theorem isPart_of_newline {line tail line' : Bytes} (hline : 10 ∉ line)
    (h : line ++ tail = line' ++ 10 :: rest) : line <+: line' := by
  rcases append_eq_append_iff.mp h with ⟨more, hmore, -⟩ | ⟨more, hmore, hrest⟩
  · exact ⟨more, hmore.symm⟩
  · cases more with
    | nil => exact ⟨[], by rw [hmore, append_nil, append_nil]⟩
    | cons b more =>
      obtain ⟨rfl, -⟩ := List.cons.inj hrest
      exact absurd (by rw [hmore]; simp) hline

/-- No line that is accepted begins like this. -/
theorem SpoiledLine.never {y content : Bytes} (h : SpoiledLine kind x)
    (hread : readLineBytes (x ++ y) = .ok (content, rest)) : ¬kind.Accepts content := by
  intro haccepts
  obtain ⟨heq, hcontent, hlen⟩ := readLineBytes_ok hread
  have hnewline : content ++ (crlf ++ rest) = (content ++ [13]) ++ 10 :: rest := by simp [crlf]
  rw [hnewline] at heq
  have hline : 10 ∉ content ++ [13] := by simp [hcontent]
  cases h with
  | unfinished noNewline short leadsNowhere =>
    -- the unfinished line lies within the line that was read
    obtain ⟨more, hmore⟩ := isPart_of_newline noNewline heq
    apply leadsNowhere
    rcases eq_nil_or_concat more with rfl | ⟨more', b, rfl⟩
    · rw [append_nil] at hmore
      exact .inr ⟨content, hmore, haccepts⟩
    · rw [concat_eq_append, ← append_assoc] at hmore
      have hcut : x ++ more' = content := (append_inj' hmore rfl).1
      refine .inl ⟨LineKind.begins_of_accepts (hcut ▸ haccepts), ?_⟩
      rw [← hcut, length_append] at hlen
      omega
  | @bareNewline line noNewline short bare after =>
    -- both lines end at the first newline
    rw [append_assoc, cons_append] at heq
    have hbelow := isPart_of_newline noNewline heq
    have habove := isPart_of_newline hline heq.symm
    have hsame : line = content ++ [13] := hbelow.eq_of_length_le habove.length_le
    exact bare (by rw [hsame]; simp)

/-- **A line that is not finished is spoiled or can be finished.** -/
theorem readLineBytes_torn (kind : LineKind)
    (hread : readLineBytes x = .error err) (htorn : isRecoverableTruncation err = true) :
    SpoiledLine kind x ∨ ∃ y content, y ≠ [] ∧ kind.Accepts content ∧
      readLineBytes (x ++ y) = .ok (content, []) := by
  by_cases hnewline : 10 ∈ x
  · obtain ⟨line, rest, rfl, hline⟩ := eq_append_cons_of_mem hnewline
    rw [readLineBytes_line_eq rest hline] at hread
    split at hread
    · rename_i hlen
      refine .inl (.bareNewline hline hlen (fun hlast => ?_) rest)
      obtain ⟨content, rfl⟩ := List.getLast?_eq_some_iff.mp hlast
      have htrim := trimCRLF_append_crlf content
      rw [append_assoc] at hread
      change (trimCRLF (content ++ crlf)).map _ = _ at hread
      rw [htrim] at hread
      cases hread
    · cases hread
      cases htorn
  · have hlen : x.length < maxOpenLine := by
      by_contra hlen
      rw [readLineBytes_open_eq hnewline, if_neg hlen] at hread
      cases hread
      cases htorn
    by_cases hstarts : kind.Starts x
    · right
      rcases hstarts with ⟨hbegins, hroom⟩ | ⟨content, rfl, haccepts⟩
      · obtain ⟨more, hmore, haccepts, hroom'⟩ := hbegins.complete hroom
        refine ⟨more ++ (crlf ++ []), x ++ more, by simp [crlf], haccepts, ?_⟩
        rw [← append_assoc]
        exact readLineBytes_content [] (by simp [hnewline, hmore]) hroom'
      · refine ⟨[10], content, by simp, haccepts, ?_⟩
        rw [append_assoc]
        rw [length_append] at hlen
        exact readLineBytes_content [] (fun h => hnewline (mem_append_left _ h)) hlen
    · exact .inl (.unfinished hnewline hlen hstarts)

/-! ## Values -/

/-- What the line after a marker is read for; an array is more than its line. -/
def markerKind (marker : UInt8) : Option LineKind :=
  match marker with
  | 43 => some .text
  | 45 => some .text
  | 58 => some .integer
  | 36 => some .bulkLength
  | 35 => some .boolean
  | 95 => some .null
  | _ => none

/-- Bytes in the place of CRLF that are something else. -/
inductive WrongTerminator : Bytes → Prop where
  | one {b : UInt8} (wrong : b ≠ 13) : WrongTerminator [b]
  | two {b c : UInt8} (wrong : ¬(b = 13 ∧ c = 10)) (rest : Bytes) : WrongTerminator (b :: c :: rest)

/-- A line with a number. -/
structure LengthLine (header : Bytes) (n : Nat) : Prop where
  number : parseDecimalInt header = .ok n
  noNewline : 10 ∉ header
  short : header.length + 1 < maxOpenLine

/-- The input begins with a value that has a wrong place: a spoiled line, a bulk string with a
wrong terminator, or an array that is whole up to an element with a wrong place. -/
inductive Spoiled : Nat → Bytes → Prop where
  | line (levels : Nat) {marker : UInt8} {kind : LineKind} {x : Bytes}
    (hkind : markerKind marker = some kind) (spoiled : SpoiledLine kind x) :
    Spoiled levels (marker :: x)
  | terminator (levels : Nat) {header payload t : Bytes} (length : LengthLine header payload.length)
    (fits : payload.length ≤ maxBulkStringLength) (wrong : WrongTerminator t) :
    Spoiled levels (36 :: (header ++ (crlf ++ (payload ++ t))))
  | arrayLine {levels : Nat} {x : Bytes} (spoiled : SpoiledLine .arrayLength x) :
    Spoiled (levels + 1) (42 :: x)
  | element {levels : Nat} {header t : Bytes} {count : Nat} {elements : List Bytes}
    (length : LengthLine header count) (fits : count ≤ maxArrayElements)
    (fewer : elements.length < count)
    (complete : ∀ element ∈ elements, Complete (parseValue levels) element)
    (spoiled : Spoiled levels t) :
    Spoiled (levels + 1) (42 :: (header ++ (crlf ++ (elements.flatten ++ t))))

theorem LengthLine.read {header : Bytes} {n : Nat} (h : LengthLine header n)
    (context : ErrorContext) (rest : Bytes) :
    readLength context (header ++ (crlf ++ rest)) = .ok ((n : Int), rest) := by
  rw [readLength, readLineBytes_content rest h.noNewline h.short]
  simp only [bind, Except.bind, h.number, Except.mapError, pure, Except.pure]

variable {α : Type} {limit : Nat}

/-- A reader that begins with a number is stuck on a spoiled line. -/
theorem SpoiledLine.stuck_length (hkind : kind.Numeric) (h : SpoiledLine kind x)
    (context : ErrorContext) (g : Int → Bytes → Except ParseError (α × Bytes))
    (hg : ∀ n rest p, g n rest = .ok p → kind.Allows n) :
    Stuck isRecoverableTruncation (fun x => readLength context x >>= fun p => g p.1 p.2) x := by
  obtain ⟨err, herr, htorn⟩ := h.asks
  refine ⟨⟨err, by rw [readLength, herr]; rfl, htorn⟩, fun y p hp => ?_⟩
  obtain ⟨⟨n, rest⟩, hlength, hp⟩ := bind_ok hp
  obtain ⟨⟨content, rest'⟩, hread, hlength⟩ := bind_ok hlength
  obtain ⟨n', hn, hlength⟩ := bind_ok hlength
  cases hlength
  exact h.never hread ((hkind.accepts_iff content).mpr ⟨n, mapError_ok hn, hg n rest p hp⟩)

theorem WrongTerminator.expectCRLF (h : WrongTerminator t) :
    (∃ err, Stash.expectCRLF t = .error err ∧ isRecoverableTruncation err = true) ∧
      ∀ y rest, Stash.expectCRLF (t ++ y) ≠ .ok rest := by
  cases h with
  | @one b wrong =>
    refine ⟨⟨.eof, rfl, rfl⟩, fun y rest hrest => ?_⟩
    cases y with
    | nil => cases hrest
    | cons c y =>
      simp only [cons_append, nil_append, Stash.expectCRLF] at hrest
      rw [if_neg fun hcrlf => wrong hcrlf.1] at hrest
      cases hrest
  | @two b c wrong after =>
    refine ⟨⟨.missingCRLF, if_neg wrong, rfl⟩, fun y rest hrest => ?_⟩
    simp only [cons_append, Stash.expectCRLF] at hrest
    rw [if_neg wrong] at hrest
    cases hrest

theorem parsePayload_append (payload rest : Bytes) :
    parsePayload payload.length (payload ++ rest) =
      (expectCRLF rest).mapError (ParseError.wrap .bulkTerminator) >>= fun rest =>
        .ok (.bulkString payload false, rest) := by
  rw [parsePayload, readFull_append]
  rfl

theorem WrongTerminator.stuck (h : WrongTerminator t) (payload : Bytes) :
    Stuck isRecoverableTruncation (parsePayload payload.length) (payload ++ t) := by
  obtain ⟨⟨err, herr, htorn⟩, hnever⟩ := h.expectCRLF
  refine ⟨⟨.wrap .bulkTerminator err, ?_, by rw [recoverable_wrap, htorn]⟩,
    fun y p hp => ?_⟩
  · rw [parsePayload_append, herr]
    rfl
  · rw [append_assoc, parsePayload_append] at hp
    obtain ⟨rest, hrest, -⟩ := bind_ok hp
    exact hnever y rest (mapError_ok hrest)

/-- Elements that are complete, then one that is stuck. -/
theorem stuck_parseElements (hone : Grows parseOne) {elements : List Bytes}
    (hcomplete : ∀ element ∈ elements, Complete parseOne element)
    (hstuck : Stuck isRecoverableTruncation parseOne t) {count : Nat}
    (hfewer : elements.length < count) (index : Nat) :
    Stuck isRecoverableTruncation (parseElements parseOne count index) (elements.flatten ++ t) := by
  induction elements generalizing count index with
  | nil =>
    obtain ⟨more, rfl⟩ := Nat.exists_eq_succ_of_ne_zero (Nat.ne_of_gt hfewer)
    exact (hstuck.mapError (recoverable_wrap (.arrayElement index))).bind
      fun element rest => parseElements parseOne more (index + 1) rest >>= fun p =>
        .ok (element :: p.1, p.2)
  | cons element elements ih =>
    obtain ⟨more, rfl⟩ := Nat.exists_eq_succ_of_ne_zero (Nat.ne_of_gt (Nat.zero_lt_of_lt hfewer))
    obtain ⟨value, hvalue⟩ :=
      hone.complete_append (hcomplete element mem_cons_self) (elements.flatten ++ t)
    have hrest := ih (fun e he => hcomplete e (mem_cons_of_mem _ he))
      (Nat.lt_of_succ_lt_succ hfewer) (index + 1)
    rw [flatten_cons, append_assoc]
    have hfirst : (parseOne (element ++ (elements.flatten ++ t))).mapError
        (ParseError.wrap (.arrayElement index)) = .ok (value, elements.flatten ++ t) := by
      rw [hvalue]
      rfl
    exact @Stuck.after _ _ _ _ _ _
      (hone.mapError (recoverable_wrap (.arrayElement index))) _ _ value hfirst
      (fun element rest => parseElements parseOne more (index + 1) rest >>= fun p =>
        .ok (element :: p.1, p.2))
      (hrest.bind fun elements rest => .ok (value :: elements, rest))

theorem stuck_marker {f g : Bytes → Except ParseError (Value × Bytes)} {marker : UInt8}
    (hfg : ∀ input, f (marker :: input) = g input) (h : Stuck isRecoverableTruncation g x) :
    Stuck isRecoverableTruncation f (marker :: x) := by
  obtain ⟨err, herr, htorn⟩ := h.asks
  refine ⟨⟨err, by rw [hfg, herr], htorn⟩, fun y p hp => ?_⟩
  rw [cons_append, hfg] at hp
  exact h.never y p hp

/-- The text of a line decides, and for good. -/
structure Decides (kind : LineKind) (fromLine : Bytes → Except ParseError Value) : Prop where
  accepts : ∀ line, (∃ value, fromLine line = .ok value) ↔ kind.Accepts line
  fatal : ∀ line err, fromLine line = .error err → isRecoverableTruncation err = false

theorem decides_text (value : Bytes → Value) : Decides .text fun line => .ok (value line) where
  accepts line := ⟨fun _ => trivial, fun _ => ⟨_, rfl⟩⟩
  fatal line err h := by cases h

theorem decides_integer : Decides .integer integerFromLine where
  accepts line := by
    simp only [integerFromLine, LineKind.Accepts, LineKind.Allows, and_true, parseDecimalInt]
    cases parseIntBytes line with
    | ok n => exact ⟨fun _ => ⟨_, rfl⟩, fun _ => ⟨_, rfl⟩⟩
    | error err =>
      constructor
      · rintro ⟨value, h⟩
        cases h
      · rintro ⟨n, h⟩
        cases h
  fatal line err h := by rcases integerFromLine_error h with rfl | rfl <;> rfl

theorem decides_boolean : Decides .boolean booleanFromMarker where
  accepts line := by
    unfold booleanFromMarker LineKind.Accepts
    split
    · rename_i h
      exact ⟨fun _ => .inl h, fun _ => ⟨_, rfl⟩⟩
    · split
      · rename_i h
        exact ⟨fun _ => .inr h, fun _ => ⟨_, rfl⟩⟩
      · rename_i ht hf
        constructor
        · rintro ⟨value, h⟩
          cases h
        · rintro (h | h)
          · exact absurd h ht
          · exact absurd h hf
  fatal line err h := booleanFromMarker_error h ▸ rfl

theorem decides_null : Decides .null nullFromPayload where
  accepts line := by
    unfold nullFromPayload LineKind.Accepts
    split
    · rename_i h
      exact ⟨fun _ => h, fun _ => ⟨_, rfl⟩⟩
    · rename_i h
      constructor
      · rintro ⟨value, h⟩
        cases h
      · intro h'
        exact absurd h' h
  fatal line err h := nullFromPayload_error h ▸ rfl

theorem Decides.stuck {fromLine : Bytes → Except ParseError Value} (h : Decides kind fromLine)
    (hx : SpoiledLine kind x) : Stuck isRecoverableTruncation (lineValue fromLine) x := by
  obtain ⟨err, herr, htorn⟩ := hx.asks
  refine ⟨⟨err, by rw [lineValue, herr]; rfl, htorn⟩, fun y p hp => ?_⟩
  obtain ⟨⟨content, rest⟩, hread, hp⟩ := bind_ok hp
  obtain ⟨value, hvalue, -⟩ := bind_ok hp
  exact hx.never hread ((h.accepts content).mp ⟨value, hvalue⟩)

/-- A value of one line that is not finished is spoiled or can be finished. -/
theorem Decides.torn {fromLine : Bytes → Except ParseError Value} (h : Decides kind fromLine)
    (herr : lineValue fromLine x = .error err) (htorn : isRecoverableTruncation err = true) :
    SpoiledLine kind x ∨ Unfinished (lineValue fromLine) x := by
  rcases bind_error herr with hread | ⟨p, -, hline⟩
  · rcases readLineBytes_torn kind hread htorn with hspoiled | ⟨y, content, hy, haccepts, hmore⟩
    · exact .inl hspoiled
    · obtain ⟨value, hvalue⟩ := (h.accepts content).mpr haccepts
      refine .inr ⟨y, hy, value, ?_⟩
      rw [lineValue, hmore]
      change (fromLine content >>= fun value => .ok (value, ([] : Bytes))) = _
      rw [hvalue]
      rfl
  · rcases bind_error hline with hvalue | ⟨value, -, hvalue⟩
    · rw [h.fatal p.1 _ hvalue] at htorn
      cases htorn
    · cases hvalue

/-- A length that is not refused is allowed. -/
theorem allowed_of_ne {null body r : Except ParseError α}
    {low high : ParseError}
    (h : (if n = -1 then null else if n < -1 then .error low else if n > limit then .error high
      else body) = r) (hlow : r ≠ .error low) (hhigh : r ≠ .error high) : -1 ≤ n ∧ n ≤ limit := by
  split at h
  · exact ⟨by omega, by omega⟩
  · split at h
    · exact absurd h.symm hlow
    · split at h
      · exact absurd h.symm hhigh
      · exact ⟨by omega, by omega⟩

/-- A truncation comes from the body. -/
theorem nat_of_torn {null : α} {body : Except ParseError α}
    {low high : ParseError}
    (h : (if n = -1 then .ok null else if n < -1 then .error low else if n > limit then .error high
      else body) = .error err) (hlow : err ≠ low) (hhigh : err ≠ high) :
    ∃ m : Nat, n = m ∧ m ≤ limit := by
  have hallowed := allowed_of_ne h (by simpa using hlow) (by simpa using hhigh)
  have hne : n ≠ -1 := fun hn => by rw [if_pos hn] at h; cases h
  exact ⟨n.toNat, by omega, by omega⟩

theorem bulkAfter_natCast {n : Nat} (hn : n ≤ maxBulkStringLength) :
    bulkAfter n = parsePayload n := by
  funext rest
  rw [bulkAfter, if_neg (by omega), if_neg (by omega), if_neg (by omega), Int.toNat_natCast]

theorem arrayAfter_natCast {n : Nat} (hn : n ≤ maxArrayElements) (rest : Bytes) :
    arrayAfter parseOne n rest =
      parseElements parseOne n 0 rest >>= fun p => .ok (.array p.1 false, p.2) := by
  rw [arrayAfter, if_neg (by omega), if_neg (by omega), if_neg (by omega), Int.toNat_natCast]

/-- **Nothing that may follow makes a value of spoiled bytes.** -/
theorem Spoiled.stuck (h : Spoiled levels x) :
    Stuck isRecoverableTruncation (parseValue levels) x := by
  induction h with
  | line levels hkind spoiled =>
    unfold markerKind at hkind
    split at hkind <;> cases hkind
    · exact stuck_marker (fun input => by rw [parseValue]; rfl)
        ((decides_text .simpleString).stuck spoiled)
    · exact stuck_marker (fun input => by rw [parseValue]; rfl)
        ((decides_text .errorValue).stuck spoiled)
    · exact stuck_marker (fun input => by rw [parseValue]; rfl) (decides_integer.stuck spoiled)
    · exact stuck_marker (fun input => by rw [parseValue, parseBulkString_eq])
        (spoiled.stuck_length (.inr (.inl rfl)) .bulkLength bulkAfter
          fun n rest p h => allowed_of_ne h (by simp) (by simp))
    · exact stuck_marker (fun input => by rw [parseValue]; rfl) (decides_boolean.stuck spoiled)
    · exact stuck_marker (fun input => by rw [parseValue]; rfl) (decides_null.stuck spoiled)
  | @terminator levels header payload t length fits wrong =>
    refine stuck_marker (fun input => by rw [parseValue, parseBulkString_eq])
      (Stuck.after (extends_readLength .bulkLength) (length.read .bulkLength _) ?_)
    rw [bulkAfter_natCast fits]
    exact wrong.stuck payload
  | @arrayLine levels x spoiled =>
    exact stuck_marker (fun input => by rw [parseValue, parseArray_eq])
      (spoiled.stuck_length (.inr (.inr rfl)) .arrayLength
        (arrayAfter (parseValue levels)) fun n rest p h => allowed_of_ne h (by simp) (by simp))
  | @element levels header t count elements length fits fewer complete spoiled ih =>
    refine stuck_marker (fun input => by rw [parseValue, parseArray_eq])
      (Stuck.after (extends_readLength .arrayLength) (length.read .arrayLength _) ?_)
    rw [funext (arrayAfter_natCast fits)]
    exact (stuck_parseElements (extends_parseValue levels) complete ih fewer 0).bind
      fun elements rest => .ok (Value.array elements false, rest)

/-! ## What is neither refused nor spoiled can be finished -/

/-- A number that is not finished is spoiled or can be finished, to one that is allowed. -/
theorem readLength_torn_cases (hkind : kind.Numeric) (context : ErrorContext)
    (h : readLength context x = .error err) (htorn : isRecoverableTruncation err = true) :
    SpoiledLine kind x ∨ ∃ y n, y ≠ [] ∧ kind.Allows n ∧
      readLength context (x ++ y) = .ok (n, []) := by
  rcases bind_error h with hread | ⟨p, -, hparse⟩
  · rcases readLineBytes_torn kind hread htorn with hspoiled | ⟨y, content, hy, haccepts, hmore⟩
    · exact .inl hspoiled
    · obtain ⟨n, hn, hallows⟩ := (hkind.accepts_iff content).mp haccepts
      refine .inr ⟨y, n, hy, hallows, ?_⟩
      rw [readLength, hmore]
      simp only [bind, Except.bind, hn, Except.mapError, pure, Except.pure]
  · cases hn : parseDecimalInt p.1 with
    | ok n =>
      simp only [hn] at hparse
      cases hparse
    | error err' =>
      simp only [hn] at hparse
      cases hparse
      rw [recoverable_wrap] at htorn
      rcases parseDecimalInt_error_eq hn with rfl | rfl <;> cases htorn

theorem parsePayload_zeros (n : Nat) (rest : Bytes) :
    parsePayload n (List.replicate n 0 ++ (crlf ++ rest)) =
      .ok (.bulkString (List.replicate n 0) false, rest) := by
  have happend := parsePayload_append (List.replicate n 0) (crlf ++ rest)
  rw [length_replicate, expectCRLF_crlf] at happend
  exact happend

/-- A payload that is not finished has a wrong terminator or can be finished. -/
theorem parsePayload_torn {n : Nat} (h : parsePayload n x = .error err) :
    (∃ payload t, x = payload ++ t ∧ payload.length = n ∧ WrongTerminator t) ∨
      Unfinished (parsePayload n) x := by
  by_cases hlen : n ≤ x.length
  · -- the payload is there
    have hx : x = x.take n ++ x.drop n := (take_append_drop n x).symm
    have htake : (x.take n).length = n := length_take_of_le hlen
    generalize x.take n = payload at hx htake
    generalize x.drop n = t at hx
    subst hx htake
    rw [parsePayload_append] at h
    match t with
    | [] =>
      refine .inr ⟨crlf, by decide, .bulkString payload false, ?_⟩
      rw [append_nil, parsePayload_append]
      rfl
    | [b] =>
      by_cases hb : b = 13
      · subst hb
        refine .inr ⟨[10], by decide, .bulkString payload false, ?_⟩
        rw [append_assoc, parsePayload_append]
        rfl
      · exact .inl ⟨payload, [b], rfl, rfl, .one hb⟩
    | b :: c :: rest =>
      by_cases hcrlf : b = 13 ∧ c = 10
      · simp only [expectCRLF, if_pos hcrlf] at h
        cases h
      · exact .inl ⟨payload, b :: c :: rest, rfl, rfl, .two hcrlf rest⟩
  · -- the payload is filled up
    refine .inr ⟨List.replicate (n - x.length) 0 ++ crlf, by simp [crlf],
      .bulkString (x ++ List.replicate (n - x.length) 0) false, ?_⟩
    have happend := parsePayload_append (x ++ List.replicate (n - x.length) 0) (crlf ++ [])
    rw [expectCRLF_crlf, length_append, length_replicate,
      Nat.add_sub_cancel' (by omega)] at happend
    rw [← append_assoc, ← append_nil crlf]
    exact happend

/-- Nulls for the elements that are missing. -/
def nulls (count : Nat) : Bytes :=
  (List.replicate count (ascii "_\r\n")).flatten

theorem parseValue_null (levels : Nat) (rest : Bytes) :
    parseValue levels (ascii "_\r\n" ++ rest) = .ok (.null, rest) := by
  have hline := readLineBytes_content rest (show 10 ∉ ([] : Bytes) by simp) (by decide)
  have hbytes : ascii "_\r\n" ++ rest = 95 :: ([] ++ (crlf ++ rest)) := rfl
  simp only [hbytes, parseValue, hline]
  rfl

theorem parseElements_nulls (levels count index : Nat) :
    ∃ values, parseElements (parseValue levels) count index (nulls count) = .ok (values, []) := by
  induction count generalizing index with
  | zero => exact ⟨[], rfl⟩
  | succ count ih =>
    obtain ⟨values, hvalues⟩ := ih (index + 1)
    refine ⟨.null :: values, ?_⟩
    rw [nulls, replicate_succ, flatten_cons, parseElements, parseValue_null]
    change (parseElements (parseValue levels) count (index + 1) (nulls count) >>= _) = _
    rw [hvalues]
    rfl

/-- What asks for more is spoiled, or can be finished. -/
def TornCases (levels : Nat) : Prop :=
  ∀ x err, parseValue levels x = .error err → isRecoverableTruncation err = true →
    Spoiled levels x ∨ Unfinished (parseValue levels) x

/-- Elements that are not finished: one of them is spoiled, or they can be finished. -/
theorem parseElements_torn_cases (hone : TornCases levels)
    {count index : Nat} (h : parseElements (parseValue levels) count index x = .error err)
    (htorn : isRecoverableTruncation err = true) :
    (∃ (elements : List Bytes) (t : Bytes), x = elements.flatten ++ t ∧ elements.length < count ∧
      (∀ element ∈ elements, Complete (parseValue levels) element) ∧ Spoiled levels t) ∨
      Unfinished (parseElements (parseValue levels) count index) x := by
  have hgrows := extends_parseValue levels
  induction count generalizing index x err with
  | zero => cases h
  | succ count ih =>
    rw [parseElements] at h
    cases hfirst : parseValue levels x with
    | error err' =>
      rw [hfirst] at h
      cases h
      rw [recoverable_wrap] at htorn
      rcases hone x err' hfirst htorn with hspoiled | ⟨y, hy, value, hvalue⟩
      · exact .inl ⟨[], x, rfl, Nat.zero_lt_succ _, by simp, hspoiled⟩
      · -- the first element is finished, and the others are nulls
        obtain ⟨values, hvalues⟩ := parseElements_nulls levels count (index + 1)
        refine .inr ⟨y ++ nulls count, by simp [hy], value :: values, ?_⟩
        rw [parseElements, ← append_assoc, hgrows.ok hvalue]
        change (parseElements (parseValue levels) count (index + 1) (nulls count) >>= _) = _
        rw [hvalues]
        rfl
    | ok p =>
      obtain ⟨value, rest⟩ := p
      obtain ⟨element, rfl, helement⟩ := hgrows.split hfirst
      rw [hfirst] at h
      change (parseElements (parseValue levels) count (index + 1) rest >>= _) = _ at h
      rcases bind_error h with hothers | ⟨others, -, hothers⟩
      swap
      · cases hothers
      rcases ih hothers htorn with ⟨elements, t, rfl, hfewer, hcomplete, hspoiled⟩ |
        ⟨y, hy, values, hvalues⟩
      · refine .inl ⟨element :: elements, t, by simp, Nat.succ_lt_succ hfewer, ?_, hspoiled⟩
        intro e he
        rcases mem_cons.mp he with rfl | he
        · exact ⟨value, helement⟩
        · exact hcomplete e he
      · refine .inr ⟨y, hy, value :: values, ?_⟩
        rw [parseElements, append_assoc, hgrows.ok helement]
        change (parseElements (parseValue levels) count (index + 1) (rest ++ y) >>= _) = _
        rw [hvalues]
        rfl

/-- A number with a body: finished, or spoiled in the number or in the body. -/
theorem parse_length_torn (hkind : kind.Numeric) (context : ErrorContext)
    {after : Int → Bytes → Except ParseError (Value × Bytes)}
    (hfill : ∀ n, kind.Allows n → Complete (after n) [] ∨ Unfinished (after n) [])
    (h : (readLength context x >>= fun p => after p.1 p.2) = .error err)
    (htorn : isRecoverableTruncation err = true) :
    SpoiledLine kind x ∨
      Unfinished (fun x => readLength context x >>= fun p => after p.1 p.2) x ∨
      ∃ n rest, readLength context x = .ok (n, rest) ∧ after n rest = .error err := by
  rcases bind_error h with hlength | ⟨p, hlength, hafter⟩
  swap
  · exact .inr (.inr ⟨p.1, p.2, hlength, hafter⟩)
  · rcases readLength_torn_cases hkind context hlength htorn with hspoiled | ⟨y, n, hy, hn, hmore⟩
    · exact .inl hspoiled
    · right
      left
      rcases hfill n hn with ⟨value, hvalue⟩ | ⟨z, hz, value, hvalue⟩
      · refine ⟨y, hy, value, ?_⟩
        simp only [hmore]
        exact hvalue
      · refine ⟨y ++ z, by simp [hy], value, ?_⟩
        simp only [← append_assoc, (extends_readLength context).ok hmore z]
        exact hvalue

theorem unfinished_marker {f g : Bytes → Except ParseError (Value × Bytes)} {marker : UInt8}
    (hfg : ∀ input, f (marker :: input) = g input) (h : Unfinished g x) :
    Unfinished f (marker :: x) := by
  obtain ⟨y, hy, value, hvalue⟩ := h
  exact ⟨y, hy, value, by rw [cons_append, hfg, hvalue]⟩

/-- A number that was read and is allowed is a length, or it is minus one. -/
theorem nat_of_allows (h : -1 ≤ n ∧ n ≤ limit) (hne : n ≠ -1) : ∃ m : Nat, n = m ∧ m ≤ limit :=
  ⟨n.toNat, by omega, by omega⟩

theorem parseBulkString_torn_cases (levels : Nat)
    (h : parseBulkString x = .error err) (htorn : isRecoverableTruncation err = true) :
    Spoiled levels (36 :: x) ∨ Unfinished parseBulkString x := by
  have hfill : ∀ n, LineKind.bulkLength.Allows n →
      Complete (bulkAfter n) [] ∨ Unfinished (bulkAfter n) [] := by
    intro n hn
    by_cases hne : n = -1
    · exact .inl ⟨_, by rw [bulkAfter, if_pos hne]⟩
    · obtain ⟨m, rfl, hm⟩ := nat_of_allows hn hne
      rw [bulkAfter_natCast hm]
      exact .inr ⟨_, by simp [crlf], _, parsePayload_zeros m []⟩
  rcases parse_length_torn (.inr (.inl rfl)) .bulkLength hfill h htorn with
    hspoiled | hunfinished | ⟨n, rest, hlength, hafter⟩
  · exact .inl (.line levels rfl hspoiled)
  · exact .inr hunfinished
  · obtain ⟨m, rfl, hm⟩ := nat_of_torn hafter (by rintro rfl; cases htorn) (by rintro rfl; cases htorn)
    obtain ⟨header, rfl, hnumber, hnewline, hshort⟩ := readLength_ok hlength
    rw [bulkAfter_natCast hm] at hafter
    rcases parsePayload_torn hafter with ⟨payload, t, rfl, rfl, hwrong⟩ | ⟨y, hy, value, hvalue⟩
    · exact .inl (.terminator levels ⟨hnumber, hnewline, hshort⟩ hm hwrong)
    · refine .inr ⟨y, hy, value, ?_⟩
      rw [parseBulkString_eq, (extends_readLength .bulkLength).ok hlength y]
      change bulkAfter m (rest ++ y) = _
      rw [bulkAfter_natCast hm, hvalue]

theorem parseArray_torn_cases
    (hone : TornCases levels) (h : parseArray (parseValue levels) x = .error err)
    (htorn : isRecoverableTruncation err = true) :
    Spoiled (levels + 1) (42 :: x) ∨ Unfinished (parseArray (parseValue levels)) x := by
  -- an array whose length line is read is completed with null elements
  have hfill : ∀ n, LineKind.arrayLength.Allows n →
      Complete (arrayAfter (parseValue levels) n) [] ∨
        Unfinished (arrayAfter (parseValue levels) n) [] := by
    intro n hn
    by_cases hne : n = -1
    · exact .inl ⟨_, by rw [arrayAfter, if_pos hne]⟩
    · obtain ⟨m, rfl, hm⟩ := nat_of_allows hn hne
      obtain ⟨values, hvalues⟩ := parseElements_nulls levels m 0
      cases m with
      | zero => exact .inl ⟨_, arrayAfter_natCast hm []⟩
      | succ m =>
        refine .inr ⟨nulls (m + 1), fun hnil => ?_, .array values false, ?_⟩
        · cases hnil
        · rw [nil_append, arrayAfter_natCast hm, hvalues]
          rfl
  rcases parse_length_torn (.inr (.inr rfl)) .arrayLength hfill h htorn with
    hspoiled | hunfinished | ⟨n, rest, hlength, hafter⟩
  · exact .inl (.arrayLine hspoiled)
  · exact .inr hunfinished
  · obtain ⟨m, rfl, hm⟩ := nat_of_torn hafter (by rintro rfl; cases htorn) (by rintro rfl; cases htorn)
    obtain ⟨header, rfl, hnumber, hnewline, hshort⟩ := readLength_ok hlength
    rw [arrayAfter_natCast hm] at hafter
    rcases bind_error hafter with helements | ⟨elements, -, helements⟩
    swap
    · cases helements
    rcases parseElements_torn_cases hone helements htorn with
      ⟨elements, t, rfl, hfewer, hcomplete, hspoiled⟩ | ⟨y, hy, values, hvalues⟩
    · exact .inl (.element ⟨hnumber, hnewline, hshort⟩ hm hfewer hcomplete hspoiled)
    · refine .inr ⟨y, hy, .array values false, ?_⟩
      rw [parseArray_eq, (extends_readLength .arrayLength).ok hlength y]
      change arrayAfter (parseValue levels) m (rest ++ y) = _
      rw [arrayAfter_natCast hm, hvalues]
      rfl

theorem parseValue_torn_level
    (hbelow : ∀ below, levels = below + 1 → TornCases below) (h : parseValue levels x = .error err)
    (htorn : isRecoverableTruncation err = true) :
    Spoiled levels x ∨ Unfinished (parseValue levels) x := by
  cases x with
  | nil => exact .inr ⟨ascii "_\r\n", by decide, .null, parseValue_null levels []⟩
  | cons marker input =>
    -- a value of one line
    have hline : ∀ {kind fromLine}, markerKind marker = some kind → Decides kind fromLine →
        (∀ input, parseValue levels (marker :: input) = lineValue fromLine input) →
        Spoiled levels (marker :: input) ∨ Unfinished (parseValue levels) (marker :: input) := by
      intro kind fromLine hkind hdecides hvalue
      rw [hvalue] at h
      rcases hdecides.torn h htorn with hspoiled | hunfinished
      · exact .inl (.line levels hkind hspoiled)
      · exact .inr (unfinished_marker hvalue hunfinished)
    have hcases := h
    unfold parseValue at hcases
    split at hcases
    · exact hline rfl (decides_text .simpleString) fun input => by rw [parseValue]; rfl
    · exact hline rfl (decides_text .errorValue) fun input => by rw [parseValue]; rfl
    · exact hline rfl decides_integer fun input => by rw [parseValue]; rfl
    · rcases parseBulkString_torn_cases levels hcases htorn with hspoiled | hunfinished
      · exact .inl hspoiled
      · exact .inr (unfinished_marker (fun input => by rw [parseValue]) hunfinished)
    · cases levels with
      | zero =>
        cases hcases
        cases htorn
      | succ levels =>
        rcases parseArray_torn_cases (hbelow levels rfl) hcases htorn with hspoiled | hunfinished
        · exact .inl hspoiled
        · exact .inr (unfinished_marker (fun input => by rw [parseValue]) hunfinished)
    · exact hline rfl decides_boolean fun input => by rw [parseValue]; rfl
    · exact hline rfl decides_null fun input => by rw [parseValue]; rfl
    · cases hcases
      cases htorn

/-- **Bytes at which the parser asks for more are spoiled or a part of a value.** -/
theorem parseValue_torn (levels : Nat) : TornCases levels := by
  induction levels with
  | zero => exact fun x err => parseValue_torn_level fun below hbelow => by cases hbelow
  | succ levels ih =>
    refine fun x err => parseValue_torn_level fun below hbelow => ?_
    obtain rfl := Nat.succ.inj hbelow
    exact ih

/-! ## Files -/

/-- Complete frames, then a part of one, which may be empty. -/
def TornFile (file : Bytes) : Prop :=
  ∃ (frames : List Bytes) (tail : Bytes), file = frames.flatten ++ tail ∧
    (∀ frame ∈ frames, Complete parse frame) ∧ Unfinished parse tail

/-- Complete frames, then spoiled bytes. -/
def SpoiledFile (file : Bytes) : Prop :=
  ∃ (frames : List Bytes) (tail : Bytes), file = frames.flatten ++ tail ∧
    (∀ frame ∈ frames, Complete parse frame) ∧ Spoiled maxNestingDepth tail

/-- No further bytes could complete a spoiled file. -/
theorem SpoiledFile.not_torn {file : Bytes} (h : SpoiledFile file) : ¬TornFile file := by
  obtain ⟨frames, tail, hfile, hframes, hspoiled⟩ := h
  rintro ⟨frames', tail', hfile', hframes', hunfinished⟩
  have hgrows : Grows parse := extends_parseValue maxNestingDepth
  obtain ⟨err, hasks, -⟩ := hspoiled.stuck.asks
  obtain ⟨err', hasks', -⟩ := hgrows.unfinished hunfinished
  have hsame : tail = tail' := hgrows.remainder_unique hframes hframes' ⟨err, hasks⟩ ⟨err', hasks'⟩
    (hfile.symm.trans hfile')
  exact hspoiled.stuck.not_unfinished (hsame ▸ hunfinished)

section Load

variable {σ ε : Type} {replay : σ → Value → σ × Option ε}

/-- The loader cuts the file into frames and the bytes at which the parser gave up. -/
theorem loadLoop_split (haccept : ∀ state value, (replay state value).2 = none) (stats : LoadStats)
    (state : σ) (file : Bytes) :
    ∃ (frames : List Bytes) (tail : Bytes) (err : ParseError), file = frames.flatten ++ tail ∧
      (∀ frame ∈ frames, Complete parse frame) ∧ parse tail = .error err ∧
      ((loadLoop replay stats state file).err = none ↔ isRecoverableTruncation err = true) := by
  induction h : file.length using Nat.strong_induction_on generalizing stats state file with
  | _ n ih =>
    cases hparse : parse file with
    | error err =>
      exact ⟨[], file, err, rfl, by simp, hparse, (loadLoop_parse_error replay stats state hparse).2⟩
    | ok p =>
      obtain ⟨value, rest⟩ := p
      obtain ⟨frame, rfl, hframe⟩ := (extends_parseValue maxNestingDepth).split hparse
      rw [loadLoop_accept haccept hparse]
      obtain ⟨frames, tail, err, rfl, hframes, htail, hload⟩ := ih rest.length
        (h ▸ parse_rest_lt hparse) { stats with replayedCommands := stats.replayedCommands + 1 }
        (replay state value).1 rest rfl
      refine ⟨frame :: frames, tail, err, by simp, fun f hf => ?_, htail, hload⟩
      rcases mem_cons.mp hf with rfl | hf
      · exact ⟨value, hframe⟩
      · exact hframes f hf

/-- The loader stops at the spoiled bytes, and takes them for the end of the file. -/
theorem SpoiledFile.load {file : Bytes} (h : SpoiledFile file)
    (haccept : ∀ state value, (replay state value).2 = none) (state : σ) :
    (loadFile replay state file).err = none := by
  obtain ⟨frames, tail, hfile, hframes, hspoiled⟩ := h
  obtain ⟨frames', tail', err', hfile', hframes', htail', hload⟩ :=
    loadLoop_split haccept ⟨0, false⟩ state file
  obtain ⟨err, hasks, hretry⟩ := hspoiled.stuck.asks
  have hsame : tail = tail' := (extends_parseValue maxNestingDepth).remainder_unique hframes hframes'
    ⟨err, hasks⟩ ⟨err', htail'⟩ (hfile.symm.trans hfile')
  subst hsame
  have herr : err = err' := Except.error.inj (hasks.symm.trans htail')
  exact hload.mpr (herr ▸ hretry)

/-- **A load that succeeds has seen a torn file, exactly if the file is not spoiled.** -/
theorem loadFile_torn_iff (haccept : ∀ state value, (replay state value).2 = none) (state : σ)
    (file : Bytes) :
    ((loadFile replay state file).err = none → TornFile file) ↔ ¬SpoiledFile file := by
  constructor
  · intro htorn hspoiled
    exact hspoiled.not_torn (htorn (hspoiled.load haccept state))
  · intro hclean hok
    obtain ⟨frames, tail, err, hfile, hframes, htail, hload⟩ :=
      loadLoop_split haccept ⟨0, false⟩ state file
    rcases parseValue_torn maxNestingDepth tail err htail (hload.mp hok) with hspoiled | hunfinished
    · exact absurd ⟨frames, tail, hfile, hframes, hspoiled⟩ hclean
    · exact ⟨frames, tail, hfile, hframes, hunfinished⟩

end Load

/-- A whole PING. -/
def wholePing : Bytes :=
  ascii "*1\r\n$4\r\nPING\r\n"

/-- A PING that was cut within its payload. -/
def tornPing : Bytes :=
  ascii "*1\r\n$4\r\nPI"

/-- A log of one PING whose second PING was cut is not spoiled, and its load sees the torn tail. -/
theorem loadFile_torn_ping :
    (loadFile recordValue [] (wholePing ++ tornPing)).err = none ∧
      ¬SpoiledFile (wholePing ++ tornPing) ∧ TornFile (wholePing ++ tornPing) := by
  have hwhole : parse (wholePing ++ tornPing) =
      .ok (.array [.bulkString (ascii "PING") false] false, tornPing) := rfl
  have htail : parse tornPing =
      .error (.wrap (.arrayElement 0) (.wrap .bulkPayload .unexpectedEOF)) := rfl
  have hload : (loadFile recordValue [] (wholePing ++ tornPing)).err = none := by
    rw [loadFile, loadLoop_accept (fun _ _ => rfl) hwhole]
    exact (loadLoop_truncated htail rfl).1
  have hclean : ¬SpoiledFile (wholePing ++ tornPing) := by
    intro hspoiled
    refine hspoiled.not_torn ⟨[wholePing], tornPing, rfl, ?_, ascii "NG\r\n", by decide, ?_⟩
    · intro frame hframe
      obtain rfl := mem_singleton.mp hframe
      exact ⟨.array [.bulkString (ascii "PING") false] false, rfl⟩
    · exact ⟨.array [.bulkString (ascii "PING") false] false, rfl⟩
  exact ⟨hload, hclean, (loadFile_torn_iff (fun _ _ => rfl) [] _).mpr hclean hload⟩

/-- A PING whose payload is followed by two other bytes than CRLF, and a whole PING. -/
def spoiledPing : Bytes :=
  ascii "*1\r\n$4\r\nPINGXX*1\r\n$4\r\nPING\r\n"

theorem spoiledFile_ping : SpoiledFile spoiledPing := by
  have hbulk : Spoiled 127 (36 :: (ascii "4" ++ (crlf ++ (ascii "PING" ++
      ascii "XX*1\r\n$4\r\nPING\r\n")))) :=
    .terminator 127 ⟨rfl, by decide, by decide⟩ (by decide) (.two (by decide) _)
  have harray : Spoiled 128 (42 :: (ascii "1" ++ (crlf ++ (([] : List Bytes).flatten ++
      36 :: (ascii "4" ++ (crlf ++ (ascii "PING" ++ ascii "XX*1\r\n$4\r\nPING\r\n"))))))) :=
    .element ⟨rfl, by decide, by decide⟩ (by decide) (by decide) (by simp) hbulk
  exact ⟨[], spoiledPing, rfl, by simp, harray⟩

/-- The load of the spoiled file succeeds and discards the rest of it. -/
theorem loadFile_accepts_spoiled :
    ¬((loadFile recordValue [] spoiledPing).err = none → TornFile spoiledPing) := by
  intro h
  exact spoiledFile_ping.not_torn (h (spoiledFile_ping.load (fun _ _ => rfl) []))

end Stash
