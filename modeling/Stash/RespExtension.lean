import Stash.RespFrames

/-!
# The parser on a growing file

Every function of the parser extends in the sense of `Incremental.Extends`: a value it has read and
an error that is no truncation stay when more bytes are appended (`extends_parseValue`).
-/

namespace Stash

open DecimalText Incremental List

/-! ## Extension -/

/-- Truncations are the errors that ask for more. -/
abbrev Grows {α : Type} (f : Bytes → Except ParseError (α × Bytes)) : Prop :=
  Extends isRecoverableTruncation f

theorem extends_readLineBytes : Grows readLineBytes where
  ok {x content rest} h y := by
    obtain ⟨rfl, hcontent, hlen⟩ := readLineBytes_ok h
    rw [append_assoc, append_assoc]
    exact readLineBytes_content (rest ++ y) hcontent hlen
  fatal {x} h y := by
    obtain ⟨err, herr, hretry⟩ := h
    by_cases hnl : 10 ∈ x
    · obtain ⟨line, after, rfl, hline⟩ := eq_append_cons_of_mem hnl
      rw [append_assoc, cons_append, readLineBytes_line_eq _ hline]
      rw [readLineBytes_line_eq after hline] at herr
      split at herr
      · -- a line without its carriage return counts as a truncation
        unfold trimCRLF at herr
        split at herr
        · cases herr
        · cases herr
          cases hretry
      · rename_i hlen
        exact ⟨_, if_neg hlen, rfl⟩
    · have hlong : ¬x.length < maxOpenLine := by
        intro hlen
        rw [readLineBytes_open_eq hnl, if_pos hlen] at herr
        cases herr
        cases hretry
      by_cases hy : 10 ∈ y
      · obtain ⟨line, after, rfl, hline⟩ := eq_append_cons_of_mem hy
        rw [← append_assoc, readLineBytes_line_eq after (by simp [hnl, hline])]
        exact ⟨_, if_neg (by rw [length_append]; omega), rfl⟩
      · rw [readLineBytes_open_eq (by simp [hnl, hy])]
        exact ⟨_, rfl, by rw [if_neg (by rw [length_append]; omega)]; rfl⟩
  split {x content rest} h := by
    obtain ⟨rfl, hcontent, hlen⟩ := readLineBytes_ok h
    refine ⟨content ++ (crlf ++ []), by simp, readLineBytes_content [] hcontent hlen⟩

/-- A check of a line, after it was read. -/
theorem extends_check {α : Type} (check : Except ParseError α) :
    Grows fun rest => check >>= fun a => .ok (a, rest) := by
  cases check with
  | error err => exact extends_error err
  | ok a => exact extends_ok a

theorem extends_readLength (context : ErrorContext) : Grows (readLength context) :=
  extends_readLineBytes.bind fun line =>
    extends_check ((parseDecimalInt line).mapError (ParseError.wrap context))

theorem extends_readFull (length : Nat) : Grows (readFull length) where
  ok {x payload rest} h y := by
    unfold readFull at h ⊢
    split at h
    · rename_i hlen
      cases h
      rw [if_pos (by rw [length_append]; omega), take_append_of_le_length hlen,
        drop_append_of_le_length hlen]
    · split at h <;> cases h
  fatal {x} h y := by
    obtain ⟨err, herr, hretry⟩ := h
    unfold readFull at herr
    split at herr
    · cases herr
    · split at herr <;> cases herr <;> cases hretry
  split {x payload rest} h := by
    unfold readFull at h
    split at h
    · rename_i hlen
      cases h
      have htake : (x.take length).length = length := length_take_of_le hlen
      refine ⟨x.take length, (take_append_drop length x).symm, ?_⟩
      rw [readFull, if_pos htake.ge, take_of_length_le htake.le, drop_of_length_le htake.le]
    · split at h <;> cases h

theorem extends_expectCRLF : Grows fun x => (expectCRLF x).map ((), ·) where
  ok {x _ rest} h y := by
    rcases x with _ | ⟨carriage, _ | ⟨newline, after⟩⟩
    · cases h
    · cases h
    · simp only [expectCRLF] at h
      split at h
      · rename_i hcrlf
        cases h
        simp only [cons_append, expectCRLF, if_pos hcrlf]
        rfl
      · cases h
  fatal {x} h y := by
    obtain ⟨err, herr, hretry⟩ := h
    rcases x with _ | ⟨carriage, _ | ⟨newline, after⟩⟩
    · cases herr
      cases hretry
    · cases herr
      cases hretry
    · simp only [expectCRLF] at herr
      split at herr
      · cases herr
      · cases herr
        cases hretry
  split {x _ rest} h := by
    rcases x with _ | ⟨carriage, _ | ⟨newline, after⟩⟩
    · cases h
    · cases h
    · simp only [expectCRLF] at h
      split at h
      · rename_i hcrlf
        cases h
        refine ⟨[carriage, newline], rfl, ?_⟩
        simp only [expectCRLF, if_pos hcrlf]
        rfl
      · cases h

/-- The payload of a bulk string and its terminator. -/
def parsePayload (length : Nat) (input : Bytes) : Except ParseError (Value × Bytes) := do
  let (payload, rest) ← (readFull length input).mapError (ParseError.wrap .bulkPayload)
  let rest ← (expectCRLF rest).mapError (ParseError.wrap .bulkTerminator)
  return (.bulkString payload false, rest)

theorem extends_parsePayload (length : Nat) : Grows (parsePayload length) := by
  have hread := (extends_readFull length).mapError (recoverable_wrap .bulkPayload)
  have hend := extends_expectCRLF.mapError (recoverable_wrap .bulkTerminator)
  have hwhole := hread.bind fun payload =>
    hend.bind fun _ => extends_ok (Value.bulkString payload false)
  refine (congrArg Grows (funext fun input => ?_)).mp hwhole
  unfold parsePayload
  cases (readFull length input).mapError (ParseError.wrap .bulkPayload) with
  | error err => rfl
  | ok p =>
    change _ = (expectCRLF p.2).mapError _ >>= _
    change ((expectCRLF p.2).map ((), ·)).mapError _ >>= _ = _
    cases expectCRLF p.2 <;> rfl

/-- A bulk string after its length. -/
def bulkAfter (length : Int) (rest : Bytes) : Except ParseError (Value × Bytes) :=
  if length = -1 then .ok (.bulkString [] true, rest)
  else if length < -1 then .error (.invalidBulkLength length)
  else if length > maxBulkStringLength then .error (.bulkLengthExceedsLimit length)
  else parsePayload length.toNat rest

theorem parseBulkString_eq (input : Bytes) :
    parseBulkString input = readLength .bulkLength input >>= fun p => bulkAfter p.1 p.2 :=
  rfl

/-- An array after its length. -/
def arrayAfter (parseOne : Bytes → Except ParseError (Value × Bytes)) (count : Int) (rest : Bytes) :
    Except ParseError (Value × Bytes) :=
  if count = -1 then .ok (.array [] true, rest)
  else if count < -1 then .error (.invalidArrayLength count)
  else if count > maxArrayElements then .error (.arrayLengthExceedsLimit count)
  else parseElements parseOne count.toNat 0 rest >>= fun p => .ok (.array p.1 false, p.2)

theorem parseArray_eq (parseOne : Bytes → Except ParseError (Value × Bytes)) (input : Bytes) :
    parseArray parseOne input =
      readLength .arrayLength input >>= fun p => arrayAfter parseOne p.1 p.2 :=
  rfl

theorem extends_ite {α : Type} {p : Prop} [Decidable p]
    {f g : Bytes → Except ParseError (α × Bytes)}
    (hf : Grows f) (hg : Grows g) : Grows fun input => if p then f input else g input := by
  by_cases h : p
  · simpa only [if_pos h] using hf
  · simpa only [if_neg h] using hg

theorem extends_bulkAfter (length : Int) : Grows (bulkAfter length) :=
  extends_ite (extends_ok _) (extends_ite (extends_error _)
    (extends_ite (extends_error _) (extends_parsePayload length.toNat)))

variable {parseOne : Bytes → Except ParseError (Value × Bytes)}

theorem extends_parseElements
    (hone : Grows parseOne) : ∀ count index : Nat, Grows (parseElements parseOne count index)
  | 0, _ => extends_ok []
  | count + 1, index =>
    (hone.mapError (recoverable_wrap (.arrayElement index))).bind fun element =>
      (extends_parseElements hone count (index + 1)).bind fun elements =>
        extends_ok (element :: elements)

theorem extends_arrayAfter
    (hone : Grows parseOne) (count : Int) : Grows (arrayAfter parseOne count) :=
  extends_ite (extends_ok _) (extends_ite (extends_error _) (extends_ite (extends_error _)
    ((extends_parseElements hone count.toNat 0).bind fun elements =>
      extends_ok (Value.array elements false))))

theorem extends_parseArray (hone : Grows parseOne) : Grows (parseArray parseOne) :=
  (extends_readLength .arrayLength).bind (extends_arrayAfter hone)

/-- A value of one line. -/
def lineValue (fromLine : Bytes → Except ParseError Value) (input : Bytes) :
    Except ParseError (Value × Bytes) :=
  readLineBytes input >>= fun p => fromLine p.1 >>= fun value => .ok (value, p.2)

theorem extends_lineValue (fromLine : Bytes → Except ParseError Value) :
    Grows (lineValue fromLine) :=
  extends_readLineBytes.bind fun line => extends_check (fromLine line)

theorem parseValue_nil (levels : Nat) : parseValue levels [] = .error .eof := by
  rw [parseValue]

theorem extends_level {levels : Nat}
    (hbelow : ∀ below, levels = below + 1 → Grows (parseValue below)) :
    Grows (parseValue levels) := by
  have hmarked : ∀ marker, Grows fun input => parseValue levels (marker :: input) := by
    intro marker
    unfold parseValue
    split
    · exact extends_lineValue fun line => .ok (.simpleString line)
    · exact extends_lineValue fun line => .ok (.errorValue line)
    · exact extends_lineValue integerFromLine
    · exact (extends_readLength .bulkLength).bind extends_bulkAfter
    · match levels with
      | 0 => exact extends_error _
      | levels + 1 => exact extends_parseArray (hbelow levels rfl)
    · exact extends_lineValue booleanFromMarker
    · exact extends_lineValue nullFromPayload
    · exact extends_error _
  constructor
  · intro x a rest h y
    cases x with
    | nil =>
      rw [parseValue_nil] at h
      cases h
    | cons marker input => exact (hmarked marker).ok h y
  · intro x h y
    cases x with
    | nil =>
      obtain ⟨err, herr, hretry⟩ := h
      rw [parseValue_nil] at herr
      cases herr
      cases hretry
    | cons marker input => exact (hmarked marker).fatal h y
  · intro x a rest h
    cases x with
    | nil =>
      rw [parseValue_nil] at h
      cases h
    | cons marker input =>
      obtain ⟨item, hitem, hvalue⟩ := (hmarked marker).split h
      exact ⟨marker :: item, by rw [hitem]; rfl, hvalue⟩

/-- **What the parser has read, and what it has refused, stays when bytes are appended.** -/
theorem extends_parseValue (levels : Nat) : Grows (parseValue levels) := by
  induction levels with
  | zero => exact extends_level fun below h => by cases h
  | succ levels ih =>
    refine extends_level fun below h => ?_
    obtain rfl := Nat.succ.inj h
    exact ih

end Stash
