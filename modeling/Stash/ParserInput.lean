import Stash.GoBufio
import Stash.RespExtension

/-!
# The parser over a buffered reader

`protocol.Parser` uses three functions of its `bufio.Reader`: `ReadByte`, `ReadSlice` and, through
`io.ReadFull`, `Read`.  Here the parser is written over any reader that has them, as `RespParser`
writes it over the bytes themselves; over a `bufio.Reader` it is the program as it runs, on whatever
pieces the connection delivers.

`Views` says what the parser relies on, in terms of what is left to be read.
-/

namespace Stash

/-- What the parser uses of its reader. -/
structure Input (σ : Type) where
  readByte : σ → Except ParseError (UInt8 × σ)
  /-- `ReadSlice('\n')` -/
  readSlice : σ → Bytes × SliceEnd × σ
  /-- `io.ReadFull` -/
  readFull : Nat → σ → Except ParseError (Bytes × σ)

/-! ## The parser -/

namespace Parser

variable {σ : Type} (input : Input σ)

/-- The loop of `readLineBytes` after a first full fragment, with the fuel of
`Stash.readLineLoop`. -/
def readLineLoop : Nat → Bytes → σ → Except ParseError (Bytes × σ)
  | 0, _, _ => .error .lineExceedsLimit
  | fuel + 1, combined, s =>
    match input.readSlice s with
    | (fragment, .delimiter, s') => (trimCRLF (combined ++ fragment)).map (·, s')
    | (_, .eof, _) => .error .eof
    | (fragment, .bufferFull, s') =>
      if maxLineLength < (combined ++ fragment).length then .error .lineExceedsLimit
      else readLineLoop fuel (combined ++ fragment) s'

def readLineBytes (s : σ) : Except ParseError (Bytes × σ) :=
  match input.readSlice s with
  | (line, .delimiter, s') => (trimCRLF line).map (·, s')
  | (_, .eof, _) => .error .eof
  | (line, .bufferFull, s') => readLineLoop input (maxLineLength / bufferSize) line s'

def expectCRLF (s : σ) : Except ParseError (Unit × σ) := do
  let (carriage, s) ← input.readByte s
  let (newline, s) ← input.readByte s
  if carriage = 13 ∧ newline = 10 then .ok ((), s) else .error .missingCRLF

/-- The length line of a bulk string or an array. -/
def readLength (context : ErrorContext) (s : σ) : Except ParseError (Int × σ) := do
  let (line, s) ← readLineBytes input s
  let length ← (parseDecimalInt line).mapError (ParseError.wrap context)
  return (length, s)

def parseBulkString (s : σ) : Except ParseError (Value × σ) := do
  let (length, s) ← readLength input .bulkLength s
  if length = -1 then .ok (.bulkString [] true, s)
  else if length < -1 then .error (.invalidBulkLength length)
  else if length > maxBulkStringLength then .error (.bulkLengthExceedsLimit length)
  else do
    let (payload, s) ← (input.readFull length.toNat s).mapError (ParseError.wrap .bulkPayload)
    let (_, s) ← (expectCRLF input s).mapError (ParseError.wrap .bulkTerminator)
    return (.bulkString payload false, s)

/-- The element loop of `parseArray`. -/
def parseElements (parseOne : σ → Except ParseError (Value × σ)) :
    Nat → Nat → σ → Except ParseError (List Value × σ)
  | 0, _, s => .ok ([], s)
  | count + 1, index, s => do
    let (element, s) ← (parseOne s).mapError (ParseError.wrap (.arrayElement index))
    let (elements, s) ← parseElements parseOne count (index + 1) s
    return (element :: elements, s)

def parseArray (parseOne : σ → Except ParseError (Value × σ)) (s : σ) :
    Except ParseError (Value × σ) := do
  let (count, s) ← readLength input .arrayLength s
  if count = -1 then .ok (.array [] true, s)
  else if count < -1 then .error (.invalidArrayLength count)
  else if count > maxArrayElements then .error (.arrayLengthExceedsLimit count)
  else do
    let (elements, s) ← parseElements parseOne count.toNat 0 s
    return (.array elements false, s)

/-- A value of one line. -/
def parseLine (fromLine : Bytes → Except ParseError Value) (s : σ) :
    Except ParseError (Value × σ) := do
  let (line, s) ← readLineBytes input s
  return (← fromLine line, s)

/-- `Parser.parse` behind the marker, at depth `maxNestingDepth - levels`, with the parser one level
below. -/
def parseMarked (below : Option (σ → Except ParseError (Value × σ))) (marker : UInt8) (s : σ) :
    Except ParseError (Value × σ) :=
  match marker with
  | 43 => parseLine input (fun line => .ok (.simpleString line)) s
  | 45 => parseLine input (fun line => .ok (.errorValue line)) s
  | 58 => parseLine input integerFromLine s
  | 36 => parseBulkString input s
  | 42 =>
    match below with
    | none => .error .nestingExceedsLimit
    | some parseOne => parseArray input parseOne s
  | 35 => parseLine input booleanFromMarker s
  | 95 => parseLine input nullFromPayload s
  | other => .error (.unsupportedPrefix other)

/-- `Parser.parse` at depth `maxNestingDepth - levels`. -/
def parseValue : Nat → σ → Except ParseError (Value × σ)
  | 0, s => do
    let (marker, s) ← input.readByte s
    parseMarked input none marker s
  | levels + 1, s => do
    let (marker, s) ← input.readByte s
    parseMarked input (some (parseValue levels)) marker s

/-- `Parser.Parse`. -/
def parse (s : σ) : Except ParseError (Value × σ) :=
  parseValue input maxNestingDepth s

end Parser

/-! ## The reader -/

/-- `ReadSlice` told the parser how it ended. -/
def SliceEnd.ofBufio : Bufio.Reader.SliceEnd → SliceEnd
  | .delimiter => .delimiter
  | .bufferFull => .bufferFull
  | .eof => .eof

/-- The reader of `NewParser`. -/
abbrev BufioReader := Bufio.Reader UInt8 bufferSize

/-- A `bufio.Reader`. -/
def bufioInput : Input BufioReader where
  readByte r :=
    match r.readByte with
    | some (first, r') => .ok (first, r')
    | none => .error .eof
  readSlice r :=
    let answer := r.readSlice (· = 10)
    (answer.1, .ofBufio answer.2.1, answer.2.2)
  readFull n r :=
    let got := Bufio.Reader.readFullLoop n n r
    if n ≤ got.1.length then .ok got
    else if got.1 = [] then .error .eof
    else .error .unexpectedEOF

/-! ## What the parser relies on -/

/-- A reader, described by what is left to be read. -/
structure Views {σ : Type} (input : Input σ) (view : σ → Bytes) : Prop where
  readByte_nil : ∀ {s}, view s = [] → input.readByte s = .error .eof
  readByte_cons : ∀ {s first rest}, view s = first :: rest →
    ∃ s', input.readByte s = .ok (first, s') ∧ view s' = rest
  readSlice : ∀ s, ∃ ending, (input.readSlice s).2.1 = .ofBufio ending ∧
    Bufio.Reader.Slices bufferSize (· = (10 : UInt8)) (view s) (input.readSlice s).1 ending
      (view (input.readSlice s).2.2)
  readFull : ∀ {s n}, n ≤ (view s).length →
    ∃ s', input.readFull n s = .ok ((view s).take n, s') ∧ view s' = (view s).drop n
  readFull_short : ∀ {s n}, (view s).length < n →
    input.readFull n s = .error (if view s = [] then .eof else .unexpectedEOF)

/-- **A `bufio.Reader` is described by what is left**, however the pieces come. -/
theorem views_bufio : Views bufioInput Bufio.Reader.left where
  readByte_nil {r} h := by
    unfold bufioInput
    simp only [Bufio.Reader.readByte_nil h]
  readByte_cons {r first rest} h := by
    obtain ⟨r', hread, hleft⟩ := Bufio.Reader.readByte_cons (by decide) h
    refine ⟨r', ?_, hleft⟩
    unfold bufioInput
    simp only [hread]
  readSlice r := ⟨_, rfl, r.slices_readSlice (· = 10)⟩
  readFull {r n} h := by
    obtain ⟨htake, hdrop⟩ := Bufio.Reader.readFullLoop_spec (by decide) n n le_rfl r
    refine ⟨(Bufio.Reader.readFullLoop n n r).2, ?_, hdrop⟩
    unfold bufioInput
    simp only
    rw [if_pos (by rw [htake, List.length_take]; omega), ← htake]
  readFull_short {r n} h := by
    obtain ⟨htake, -⟩ := Bufio.Reader.readFullLoop_spec (by decide) n n le_rfl r
    have hall : (Bufio.Reader.readFullLoop n n r).1 = r.left := by
      rw [htake, List.take_of_length_le (by omega)]
    unfold bufioInput
    simp only
    rw [hall, if_neg (by omega)]
    by_cases hnil : r.left = []
    · rw [if_pos hnil, if_pos hnil]
    · rw [if_neg hnil, if_neg hnil]

end Stash
