import Stash.RespValue

/-!
# The streaming RESP parser

`protocol.Parser` reads values from a buffered reader.  The model reads from the bytes that are
left and returns the value together with the bytes after it.  Three limits make the parser
partial on its own output: the declared length of a bulk string, the declared number of array
elements, and the length of a line.

The reader underneath is a `bufio.Reader` with its default buffer: a line is assembled from
fragments of that size, and the length of the line is tested after each fragment, which is why
the longest line accepted is not exactly `maxLineLength`.
-/

namespace Stash

open DecimalText List

/-- Where an error of the parser was wrapped on its way up. -/
inductive ErrorContext where
  | parseInteger
  | bulkLength
  | bulkPayload
  | bulkTerminator
  | arrayLength
  | arrayElement (index : Nat)
  deriving DecidableEq, Repr

/-- The errors of `Parser.Parse`.  `eof` and `unexpectedEOF` are `io.EOF` and
`io.ErrUnexpectedEOF`, `missingCRLF` is `ErrMissingCRLF`, `invalidSyntax` and `valueRange`
are `strconv.ErrSyntax` and `strconv.ErrRange`. -/
inductive ParseError where
  | eof
  | unexpectedEOF
  | missingCRLF
  | invalidSyntax
  | valueRange
  | lineExceedsLimit
  | unsupportedPrefix (marker : UInt8)
  | invalidBooleanMarker (line : Bytes)
  | invalidNullPayload (line : Bytes)
  | invalidBulkLength (length : Int)
  | bulkLengthExceedsLimit (length : Int)
  | invalidArrayLength (count : Int)
  | arrayLengthExceedsLimit (count : Int)
  | nestingExceedsLimit
  | wrap (context : ErrorContext) (inner : ParseError)
  deriving DecidableEq, Repr

/-- `errors.Is`, for a target that is itself not a wrapper: look through the wrapping. -/
def ParseError.is (target : ParseError) : ParseError → Bool
  | .wrap _ inner => ParseError.is target inner
  | err => err = target

/-- `isRecoverableTruncation` of the append-only file loader: the frame was cut off. -/
def isRecoverableTruncation (err : ParseError) : Bool :=
  ParseError.is .eof err || ParseError.is .unexpectedEOF err || ParseError.is .missingCRLF err

def maxBulkStringLength : Nat := 512 * 1024 * 1024
def maxArrayElements : Nat := 1024 * 1024
def maxLineLength : Nat := 64 * 1024
def maxNestingDepth : Nat := 128

/-- The default buffer of `bufio.NewReader`. -/
def bufferSize : Nat := 4096

/-! ## Integers -/

/-- The digit loop of `parseIntBytes`, in `uint64` arithmetic. -/
def parseIntDigits (cutoff cutlim : UInt64) : UInt64 → Bytes → Except ParseError UInt64
  | value, [] => .ok value
  | value, digit :: raw =>
    if digit < 48 ∨ digit > 57 then .error .invalidSyntax
    else
      let parsed := (digit - 48).toUInt64
      if value > cutoff ∨ (value = cutoff ∧ parsed > cutlim) then .error .valueRange
      else parseIntDigits cutoff cutlim (value * 10 + parsed) raw

/-- `uint64(1) << 63`. -/
def maxAbs : UInt64 := 0x8000000000000000

/-- The part of `parseIntBytes` after the sign. -/
def parseIntMagnitude (negative : Bool) (raw : Bytes) : Except ParseError Int64 :=
  let limit := if negative then maxAbs else maxAbs - 1
  match parseIntDigits (limit / 10) (limit % 10) 0 raw with
  | .error err => .error err
  | .ok value =>
    if negative then
      if value = maxAbs then .ok Int64.minValue else .ok (-value.toInt64)
    else .ok value.toInt64

def parseIntBytes : Bytes → Except ParseError Int64
  | [] => .error .invalidSyntax
  | first :: rest =>
    if first = 45 ∨ first = 43 then
      if rest = [] then .error .invalidSyntax else parseIntMagnitude (first = 45) rest
    else parseIntMagnitude false (first :: rest)

/-- `parseDecimalInt`: on the platforms of the server `int` has 64 bits, so the range test of the
source never fails. -/
def parseDecimalInt (raw : Bytes) : Except ParseError Int :=
  (parseIntBytes raw).map Int64.toInt

/-! ## Lines -/

/-- How `bufio.Reader.ReadSlice('\n')` ended. -/
inductive SliceEnd where
  | delimiter
  | bufferFull
  | eof
  deriving DecidableEq, Repr

/-- `bufio.Reader.ReadSlice('\n')`: the fragment, how it ended, and what is left. -/
def readSlice (input : Bytes) : Bytes × SliceEnd × Bytes :=
  match (input.take bufferSize).findIdx? (· = 10) with
  | some index => (input.take (index + 1), .delimiter, input.drop (index + 1))
  | none =>
    if bufferSize ≤ input.length then (input.take bufferSize, .bufferFull, input.drop bufferSize)
    else (input, .eof, [])

def trimCRLF (line : Bytes) : Except ParseError Bytes :=
  match line.reverse with
  | 10 :: 13 :: content => .ok content.reverse
  | _ => .error .missingCRLF

/-- The loop of `readLineBytes` after a first full fragment.  The fuel is the number of fragments
after which the accumulated line is over the limit. -/
def readLineLoop : Nat → Bytes → Bytes → Except ParseError (Bytes × Bytes)
  | 0, _, _ => .error .lineExceedsLimit
  | fuel + 1, combined, input =>
    match readSlice input with
    | (fragment, .delimiter, rest) => (trimCRLF (combined ++ fragment)).map (·, rest)
    | (_, .eof, _) => .error .eof
    | (fragment, .bufferFull, rest) =>
      if maxLineLength < (combined ++ fragment).length then .error .lineExceedsLimit
      else readLineLoop fuel (combined ++ fragment) rest

def readLineBytes (input : Bytes) : Except ParseError (Bytes × Bytes) :=
  match readSlice input with
  | (line, .delimiter, rest) => (trimCRLF line).map (·, rest)
  | (_, .eof, _) => .error .eof
  | (line, .bufferFull, rest) => readLineLoop (maxLineLength / bufferSize) line rest

/-! ## Values -/

def integerFromLine (line : Bytes) : Except ParseError Value :=
  match parseIntBytes line with
  | .ok value => .ok (.integer value)
  | .error err => .error (.wrap .parseInteger err)

def booleanFromMarker (line : Bytes) : Except ParseError Value :=
  if line = ascii "t" then .ok (.boolean true)
  else if line = ascii "f" then .ok (.boolean false)
  else .error (.invalidBooleanMarker line)

def nullFromPayload (line : Bytes) : Except ParseError Value :=
  if line = [] then .ok .null else .error (.invalidNullPayload line)

/-- `io.ReadFull`. -/
def readFull (length : Nat) (input : Bytes) : Except ParseError (Bytes × Bytes) :=
  if length ≤ input.length then .ok (input.take length, input.drop length)
  else if input = [] then .error .eof
  else .error .unexpectedEOF

def expectCRLF : Bytes → Except ParseError Bytes
  | carriage :: newline :: rest =>
    if carriage = 13 ∧ newline = 10 then .ok rest else .error .missingCRLF
  | _ => .error .eof

/-- The length line of a bulk string or an array. -/
def readLength (context : ErrorContext) (input : Bytes) : Except ParseError (Int × Bytes) := do
  let (line, rest) ← readLineBytes input
  let length ← (parseDecimalInt line).mapError (ParseError.wrap context)
  return (length, rest)

def parseBulkString (input : Bytes) : Except ParseError (Value × Bytes) := do
  let (length, rest) ← readLength .bulkLength input
  if length = -1 then .ok (.bulkString [] true, rest)
  else if length < -1 then .error (.invalidBulkLength length)
  else if length > maxBulkStringLength then .error (.bulkLengthExceedsLimit length)
  else do
    let (payload, rest) ← (readFull length.toNat rest).mapError (ParseError.wrap .bulkPayload)
    let rest ← (expectCRLF rest).mapError (ParseError.wrap .bulkTerminator)
    return (.bulkString payload false, rest)

/-- The element loop of `parseArray`: `count` more elements, the next of them number `index`. -/
def parseElements (parseOne : Bytes → Except ParseError (Value × Bytes)) :
    Nat → Nat → Bytes → Except ParseError (List Value × Bytes)
  | 0, _, input => .ok ([], input)
  | count + 1, index, input => do
    let (element, rest) ← (parseOne input).mapError (ParseError.wrap (.arrayElement index))
    let (elements, rest) ← parseElements parseOne count (index + 1) rest
    return (element :: elements, rest)

/-- `parseArray` for a parser of the elements. -/
def parseArray (parseOne : Bytes → Except ParseError (Value × Bytes)) (input : Bytes) :
    Except ParseError (Value × Bytes) := do
  let (count, rest) ← readLength .arrayLength input
  if count = -1 then .ok (.array [] true, rest)
  else if count < -1 then .error (.invalidArrayLength count)
  else if count > maxArrayElements then .error (.arrayLengthExceedsLimit count)
  else do
    let (elements, rest) ← parseElements parseOne count.toNat 0 rest
    return (.array elements false, rest)

/-- `Parser.parse` at depth `maxNestingDepth - levels`. -/
def parseValue (levels : Nat) : Bytes → Except ParseError (Value × Bytes)
  | [] => .error .eof
  | marker :: input =>
    match marker with
    | 43 => do
      let (line, rest) ← readLineBytes input
      return (.simpleString line, rest)
    | 45 => do
      let (line, rest) ← readLineBytes input
      return (.errorValue line, rest)
    | 58 => do
      let (line, rest) ← readLineBytes input
      return (← integerFromLine line, rest)
    | 36 => parseBulkString input
    | 42 =>
      match levels with
      | 0 => .error .nestingExceedsLimit
      | levels + 1 => parseArray (parseValue levels) input
    | 35 => do
      let (line, rest) ← readLineBytes input
      return (← booleanFromMarker line, rest)
    | 95 => do
      let (line, rest) ← readLineBytes input
      return (← nullFromPayload line, rest)
    | other => .error (.unsupportedPrefix other)

/-- `Parser.Parse`. -/
def parse (input : Bytes) : Except ParseError (Value × Bytes) :=
  parseValue maxNestingDepth input

/-! ## Which integers are read -/

theorem toInt_toInt64 (value : UInt64) (h : value.toNat < 2 ^ 63) :
    value.toInt64.toInt = value.toNat := by
  have : value.toBitVec.toInt = value.toBitVec.toNat := by
    rw [BitVec.toInt_eq_toNat_of_lt]
    simp only [UInt64.toNat_toBitVec]
    omega
  simpa [Int64.toInt] using this

theorem toUInt64_toNat_digit {digit : UInt8} (h : isDigit digit = true) :
    (digit - 48).toUInt64.toNat = digitValue digit := by
  simp only [isDigit, Bool.and_eq_true, decide_eq_true_eq] at h
  simp only [UInt8.toNat_toUInt64, digitValue]
  rw [UInt8.toNat_sub_of_le]
  · rfl
  · rw [UInt8.le_iff_toNat_le]; exact h.1

theorem isDigit_iff (digit : UInt8) : isDigit digit = true ↔ ¬(digit < 48 ∨ digit > 57) := by
  simp only [isDigit, Bool.and_eq_true, decide_eq_true_eq, UInt8.lt_iff_toNat_lt, gt_iff_lt]
  simp only [UInt8.reduceToNat]
  omega

/-- The overflow test of the digit loop is exact. -/
theorem parseIntDigits_step {limit value parsed : UInt64} (hparsed : parsed.toNat < 10) :
    (value > limit / 10 ∨ (value = limit / 10 ∧ parsed > limit % 10)) ↔
      limit.toNat < value.toNat * 10 + parsed.toNat := by
  simp only [gt_iff_lt, UInt64.lt_iff_toNat_lt, ← UInt64.toNat_inj, UInt64.toNat_div,
    UInt64.toNat_mod]
  simp only [UInt64.reduceToNat]
  omega

theorem parseIntDigits_eq {limit : UInt64} (hlimit : limit.toNat ≤ 2 ^ 63) :
    ∀ (raw : Bytes) (value : UInt64), raw.all isDigit = true → value.toNat ≤ limit.toNat →
      parseIntDigits (limit / 10) (limit % 10) value raw =
        if digitsValue value.toNat raw ≤ limit.toNat then
          .ok (UInt64.ofNat (digitsValue value.toNat raw))
        else .error .valueRange
  | [], value, _, hvalue => by simp [parseIntDigits, digitsValue, hvalue]
  | digit :: raw, value, hraw, hvalue => by
    simp only [all_cons, Bool.and_eq_true] at hraw
    have hparsed := toUInt64_toNat_digit hraw.1
    have hlt : digitValue digit < 10 := by
      have := hraw.1
      simp only [isDigit, Bool.and_eq_true, decide_eq_true_eq] at this
      simp only [digitValue]
      omega
    have hcons : digitsValue value.toNat (digit :: raw) =
        digitsValue (value.toNat * 10 + digitValue digit) raw := rfl
    rw [parseIntDigits, if_neg ((isDigit_iff digit).mp hraw.1)]
    simp only [parseIntDigits_step (hparsed ▸ hlt), hparsed, hcons]
    by_cases hover : limit.toNat < value.toNat * 10 + digitValue digit
    · have := le_digitsValue (value.toNat * 10 + digitValue digit) raw
      rw [if_pos hover, if_neg (by omega)]
    · have hnext : (value * 10 + (digit - 48).toUInt64).toNat =
          value.toNat * 10 + digitValue digit := by
        rw [UInt64.toNat_add, UInt64.toNat_mul, hparsed]
        simp only [UInt64.reduceToNat]
        omega
      rw [if_neg hover, parseIntDigits_eq hlimit raw _ hraw.2 (by omega), hnext]

theorem parseIntDigits_error (cutoff cutlim : UInt64) :
    ∀ (raw : Bytes) (value : UInt64), raw.all isDigit = false →
      ∃ err, parseIntDigits cutoff cutlim value raw = .error err
  | [], _, h => by simp at h
  | digit :: raw, value, h => by
    rw [parseIntDigits]
    split
    · exact ⟨_, rfl⟩
    · rename_i hdigit
      have hraw : raw.all isDigit = false := by
        simpa [(isDigit_iff digit).mpr hdigit] using h
      simp only
      split
      · exact ⟨_, rfl⟩
      · exact parseIntDigits_error cutoff cutlim raw _ hraw

theorem parseIntDigits_ok_iff (limit : UInt64) (hlimit : limit.toNat ≤ 2 ^ 63) (raw : Bytes)
    (value : UInt64) :
    parseIntDigits (limit / 10) (limit % 10) 0 raw = .ok value ↔
      raw.all isDigit = true ∧ digitsValue 0 raw ≤ limit.toNat ∧
        value.toNat = digitsValue 0 raw := by
  cases hraw : raw.all isDigit with
  | false =>
    obtain ⟨err, herr⟩ := parseIntDigits_error (limit / 10) (limit % 10) raw 0 hraw
    simp [herr]
  | true =>
    rw [parseIntDigits_eq hlimit raw 0 hraw (by simp)]
    simp only [UInt64.toNat_zero, true_and]
    split
    · rename_i hle
      simp only [Except.ok.injEq, hle, true_and]
      rw [← UInt64.toNat_inj, UInt64.toNat_ofNat', Nat.mod_eq_of_lt (by omega), eq_comm]
    · rename_i hgt
      simp [hgt]

theorem maxAbs_toNat : maxAbs.toNat = 2 ^ 63 := rfl

theorem maxAbs_sub_one_toNat : (maxAbs - 1).toNat = 2 ^ 63 - 1 := rfl

theorem parseIntMagnitude_false_ok_iff {raw : Bytes} (hne : raw ≠ []) (v : Int64) :
    parseIntMagnitude false raw = .ok v ↔ readNat raw = some v.toInt.toNat ∧ 0 ≤ v.toInt := by
  have hspec := parseIntDigits_ok_iff (maxAbs - 1) (by rw [maxAbs_sub_one_toNat]; omega) raw
  simp only [maxAbs_sub_one_toNat] at hspec
  have hv := v.toInt_lt
  simp only [parseIntMagnitude, Bool.false_eq_true, if_false, readNat_eq_some_iff]
  constructor
  · intro h
    split at h
    · simp at h
    · rename_i value hvalue
      obtain ⟨hdigits, hle, heq⟩ := (hspec value).mp hvalue
      have hint := toInt_toInt64 value (by omega)
      simp only [Except.ok.injEq] at h
      subst h
      rw [hint]
      exact ⟨⟨hne, hdigits, by simpa using heq⟩, by omega⟩
  · rintro ⟨⟨-, hdigits, heq⟩, hpos⟩
    have hnat : (UInt64.ofNat (digitsValue 0 raw)).toNat = digitsValue 0 raw := by
      rw [UInt64.toNat_ofNat', Nat.mod_eq_of_lt (by omega)]
    rw [(hspec (UInt64.ofNat (digitsValue 0 raw))).mpr ⟨hdigits, by omega, hnat⟩]
    simp only [Except.ok.injEq]
    rw [← Int64.toInt_inj, toInt_toInt64 _ (by omega), hnat]
    omega

theorem parseIntMagnitude_true_ok_iff {raw : Bytes} (hne : raw ≠ []) (v : Int64) :
    parseIntMagnitude true raw = .ok v ↔ readNat raw = some (-v.toInt).toNat ∧ v.toInt ≤ 0 := by
  have hspec := parseIntDigits_ok_iff maxAbs (by rw [maxAbs_toNat]) raw
  simp only [maxAbs_toNat] at hspec
  have hv := v.le_toInt
  have hneg : ∀ value : UInt64, value.toNat ≤ 2 ^ 63 →
      (if value = maxAbs then Int64.minValue else -value.toInt64).toInt = -(value.toNat : Int) := by
    intro value hle
    split
    · rename_i h
      rw [h, maxAbs_toNat, Int64.toInt_minValue]
      rfl
    · rename_i h
      rw [← UInt64.toNat_inj, maxAbs_toNat] at h
      rw [Int64.toInt_neg, toInt_toInt64 value (by omega)]
      rw [Int.bmod_eq_of_le] <;> omega
  simp only [parseIntMagnitude, if_true, readNat_eq_some_iff]
  constructor
  · intro h
    split at h
    · simp at h
    · rename_i value hvalue
      obtain ⟨hdigits, hle, heq⟩ := (hspec value).mp hvalue
      rw [← apply_ite (f := Except.ok), Except.ok.injEq] at h
      have hint := hneg value (by omega)
      rw [h] at hint
      rw [hint]
      exact ⟨⟨hne, hdigits, by simpa using heq⟩, by omega⟩
  · rintro ⟨⟨-, hdigits, heq⟩, hpos⟩
    have hnat : (UInt64.ofNat (digitsValue 0 raw)).toNat = digitsValue 0 raw := by
      rw [UInt64.toNat_ofNat', Nat.mod_eq_of_lt (by omega)]
    rw [(hspec (UInt64.ofNat (digitsValue 0 raw))).mpr ⟨hdigits, by omega, hnat⟩]
    simp only
    rw [← apply_ite (f := Except.ok), Except.ok.injEq, ← Int64.toInt_inj, hneg _ (by omega), hnat]
    omega

/-- **The wire integer parser accepts exactly the signed decimals in range.** -/
theorem parseIntBytes_ok_iff (raw : Bytes) (v : Int64) :
    parseIntBytes raw = .ok v ↔ readInt raw = some v.toInt := by
  cases raw with
  | nil => simp [parseIntBytes, readInt]
  | cons first rest =>
    simp only [parseIntBytes, readInt]
    by_cases hminus : first = 45
    · simp only [hminus, true_or, if_true, decide_true]
      by_cases hrest : rest = []
      · simp [hrest, readNat]
      · rw [if_neg hrest, parseIntMagnitude_true_ok_iff hrest, map_neg_readNat_eq_some_iff]
    · by_cases hplus : first = 43
      · simp only [hplus, or_true, if_true, if_neg (show ¬(43 : UInt8) = 45 by decide)]
        by_cases hrest : rest = []
        · simp [hrest, readNat]
        · rw [if_neg hrest, map_readNat_eq_some_iff]
          exact parseIntMagnitude_false_ok_iff hrest v
      · simp only [hminus, hplus, or_self, if_false]
        rw [parseIntMagnitude_false_ok_iff (by simp), map_readNat_eq_some_iff]

/-- One more digit: the value the digit loop holds before it, and the exact value after it. -/
theorem parseIntDigits_snoc {limit next : UInt64} (hlimit : limit.toNat ≤ 2 ^ 63) {front : Bytes}
    {digit : UInt8} (h : parseIntDigits (limit / 10) (limit % 10) 0 (front ++ [digit]) = .ok next) :
    ∃ value, parseIntDigits (limit / 10) (limit % 10) 0 front = .ok value ∧
      next.toNat = value.toNat * 10 + digitValue digit := by
  obtain ⟨hdigits, hle, hnext⟩ := (parseIntDigits_ok_iff limit hlimit _ _).mp h
  rw [digitsValue_append] at hle hnext
  simp only [all_append, Bool.and_eq_true] at hdigits
  have hfront := le_digitsValue (digitsValue 0 front) [digit]
  have hvalue : (UInt64.ofNat (digitsValue 0 front)).toNat = digitsValue 0 front := by
    rw [UInt64.toNat_ofNat', Nat.mod_eq_of_lt (by omega)]
  refine ⟨_, (parseIntDigits_ok_iff limit hlimit _ _).mpr ⟨hdigits.1, by omega, hvalue⟩, ?_⟩
  rw [hnext, hvalue]
  rfl

/-- **Wire integers are read exactly.**  A line is read iff it is a numeral of 64 bits, as the
number it is; the numeral of every `int64` that `appendPrefixedIntLine` writes is read back; and
under both limits, whatever digits the loop has passed, the next one leaves the number
`value * 10 + parsed` and not its remainder modulo `2 ^ 64`. -/
theorem parseIntBytes_exact (raw : Bytes) :
    ((∃ v, parseIntBytes raw = .ok v) ↔ ∃ z, readInt raw = some z ∧ InInt64 z) ∧
    (∀ v, parseIntBytes raw = .ok v → readInt raw = some v.toInt) ∧
    (∀ (marker : UInt8) (v : Int64), ∃ digits,
      appendPrefixedIntLine marker v.toInt = marker :: (digits ++ crlf) ∧
        parseIntBytes digits = .ok v) ∧
    (∀ limit, limit = maxAbs ∨ limit = maxAbs - 1 → ∀ front digit next,
      parseIntDigits (limit / 10) (limit % 10) 0 (front ++ [digit]) = .ok next →
        ∃ value, parseIntDigits (limit / 10) (limit % 10) 0 front = .ok value ∧
          next.toNat = value.toNat * 10 + digitValue digit) := by
  refine ⟨⟨?_, ?_⟩, fun v => (parseIntBytes_ok_iff raw v).mp, ?_, ?_⟩
  · rintro ⟨v, hv⟩
    exact ⟨v.toInt, (parseIntBytes_ok_iff raw v).mp hv, v.le_toInt, v.toInt_lt⟩
  · rintro ⟨z, hread, hlo, hhi⟩
    have hz : (Int64.ofInt z).toInt = z := Int64.toInt_ofInt_of_le hlo hhi
    exact ⟨Int64.ofInt z, (parseIntBytes_ok_iff _ _).mpr (by rw [hz, hread])⟩
  · intro marker v
    exact ⟨formatInt v.toInt, rfl, (parseIntBytes_ok_iff _ _).mpr (readInt_formatInt _)⟩
  · intro limit hlimit front digit next h
    refine parseIntDigits_snoc ?_ h
    rcases hlimit with rfl | rfl
    · rw [maxAbs_toNat]
    · rw [maxAbs_sub_one_toNat]
      omega

/-! ## Which lines are read

A line is read when its newline is among the first `maxOpenLine` bytes. -/

theorem trimCRLF_append_crlf (line : Bytes) : trimCRLF (line ++ crlf) = .ok line := by
  simp [trimCRLF, crlf]

variable {line input content : Bytes}

/-- A fragment ends at the first newline, if that is within the buffer. -/
theorem readSlice_delimiter (rest : Bytes) (hline : 10 ∉ line) (hlen : line.length < bufferSize) :
    readSlice (line ++ 10 :: rest) = (line ++ [10], .delimiter, rest) := by
  have hfind : ((line ++ 10 :: rest).take bufferSize).findIdx? (· = 10) = some line.length := by
    rw [List.findIdx?_eq_some_iff_getElem]
    refine ⟨by simp; omega, by simp, ?_⟩
    intro j hj
    simp only [getElem_take, decide_eq_true_eq]
    rw [getElem_append_left hj]
    exact fun h => hline (h ▸ getElem_mem hj)
  have htake : (line ++ 10 :: rest).take (line.length + 1) = line ++ [10] := by
    simp [take_append]
  have hdrop : (line ++ 10 :: rest).drop (line.length + 1) = rest := by
    simp [drop_append]
  simp only [readSlice, hfind, htake, hdrop]

theorem readSlice_bufferFull {fragment : Bytes} (rest : Bytes) (hfragment : 10 ∉ fragment)
    (hlen : fragment.length = bufferSize) :
    readSlice (fragment ++ rest) = (fragment, .bufferFull, rest) := by
  have htake : (fragment ++ rest).take bufferSize = fragment := by simp [← hlen]
  have hdrop : (fragment ++ rest).drop bufferSize = rest := by simp [← hlen]
  have hfind : fragment.findIdx? (· = 10) = none := by
    rw [List.findIdx?_eq_none_iff]
    intro b hb
    simpa using fun h : b = 10 => hfragment (h ▸ hb)
  simp only [readSlice, htake, hfind, hdrop]
  rw [if_pos (by simp; omega)]

theorem readSlice_eof (hinput : 10 ∉ input) (hlen : input.length < bufferSize) :
    readSlice input = (input, .eof, []) := by
  have htake : input.take bufferSize = input := take_of_length_le (by omega)
  have hfind : input.findIdx? (· = 10) = none := by
    rw [List.findIdx?_eq_none_iff]
    intro b hb
    simpa using fun h : b = 10 => hinput (h ▸ hb)
  simp only [readSlice, htake, hfind]
  rw [if_neg (by omega)]

/-- Cut a long stretch without a newline into one buffer and the rest. -/
theorem exists_fragment (hline : 10 ∉ line) (hlen : bufferSize ≤ line.length) :
    ∃ fragment tail, line = fragment ++ tail ∧ fragment.length = bufferSize ∧
      10 ∉ fragment ∧ 10 ∉ tail := by
  refine ⟨line.take bufferSize, line.drop bufferSize, (take_append_drop _ _).symm,
    by simpa using hlen, ?_, ?_⟩
  · exact fun h => hline (mem_of_mem_take h)
  · exact fun h => hline (mem_of_mem_drop h)

theorem trimCRLF_ok (h : trimCRLF line = .ok content) : line = content ++ crlf := by
  unfold trimCRLF at h
  split at h
  · rename_i tail htail
    simp only [Except.ok.injEq] at h
    rw [← reverse_reverse line, htail, ← h]
    simp [crlf]
  · simp at h

/-- The newline of a line that is read is among this many bytes. -/
def maxOpenLine : Nat := maxLineLength + bufferSize

theorem readLineLoop_line_eq (rest : Bytes) : ∀ (fuel : Nat) (combined line : Bytes), 10 ∉ line →
    combined.length + bufferSize * fuel = maxOpenLine →
      readLineLoop fuel combined (line ++ 10 :: rest) =
        if line.length < bufferSize * fuel then (trimCRLF (combined ++ (line ++ [10]))).map (·, rest)
        else .error .lineExceedsLimit
  | 0, _, _, _, _ => rfl
  | fuel + 1, combined, line, hline, hcombined => by
    have hbuffer : bufferSize = 4096 := rfl
    have hopen : maxOpenLine = maxLineLength + bufferSize := rfl
    rw [Nat.mul_succ] at hcombined
    by_cases hlen : line.length < bufferSize
    · rw [readLineLoop, readSlice_delimiter rest hline hlen, if_pos (by rw [Nat.mul_succ]; omega)]
    · obtain ⟨fragment, tail, rfl, hfragment, hnl, htail⟩ := exists_fragment hline (by omega)
      rw [readLineLoop, append_assoc, readSlice_bufferFull _ hnl hfragment]
      simp only
      rw [length_append, length_append, hfragment, Nat.mul_succ]
      -- only the last fragment can make the line too long
      by_cases hfuel : fuel = 0
      · rw [if_pos (by subst hfuel; omega), if_neg (by subst hfuel; omega)]
      · rw [if_neg (by have : 0 < fuel := Nat.pos_of_ne_zero hfuel; nlinarith),
          readLineLoop_line_eq rest fuel (combined ++ fragment) tail htail
            (by rw [length_append]; omega)]
        simp only [append_assoc]
        by_cases htaillen : tail.length < bufferSize * fuel
        · rw [if_pos htaillen, if_pos (by omega)]
        · rw [if_neg htaillen, if_neg (by omega)]

theorem readLineLoop_open_eq : ∀ (fuel : Nat) (combined input : Bytes), 10 ∉ input →
    combined.length + bufferSize * fuel = maxOpenLine →
      readLineLoop fuel combined input =
        .error (if input.length < bufferSize * fuel then .eof else .lineExceedsLimit)
  | 0, _, _, _, _ => rfl
  | fuel + 1, combined, input, hinput, hcombined => by
    have hbuffer : bufferSize = 4096 := rfl
    have hopen : maxOpenLine = maxLineLength + bufferSize := rfl
    rw [Nat.mul_succ] at hcombined
    by_cases hlen : input.length < bufferSize
    · rw [readLineLoop, readSlice_eof hinput hlen, if_pos (by rw [Nat.mul_succ]; omega)]
    · obtain ⟨fragment, tail, rfl, hfragment, hnl, htail⟩ := exists_fragment hinput (by omega)
      rw [readLineLoop, readSlice_bufferFull _ hnl hfragment]
      simp only
      rw [length_append, length_append, hfragment, Nat.mul_succ]
      by_cases hfuel : fuel = 0
      · rw [if_pos (by subst hfuel; omega), if_neg (by subst hfuel; omega)]
      · rw [if_neg (by have : 0 < fuel := Nat.pos_of_ne_zero hfuel; nlinarith),
          readLineLoop_open_eq fuel (combined ++ fragment) tail htail
            (by rw [length_append]; omega)]
        by_cases htaillen : tail.length < bufferSize * fuel
        · rw [if_pos htaillen, if_pos (by omega)]
        · rw [if_neg htaillen, if_neg (by omega)]

/-- **What is read of a terminated line.** -/
theorem readLineBytes_line_eq (rest : Bytes) (hline : 10 ∉ line) :
    readLineBytes (line ++ 10 :: rest) =
      if line.length < maxOpenLine then (trimCRLF (line ++ [10])).map (·, rest)
      else .error .lineExceedsLimit := by
  have hmax : maxOpenLine = bufferSize + bufferSize * (maxLineLength / bufferSize) := rfl
  by_cases hlen : line.length < bufferSize
  · rw [readLineBytes, readSlice_delimiter rest hline hlen, if_pos (by omega)]
  · obtain ⟨fragment, tail, rfl, hfragment, hnl, htail⟩ := exists_fragment hline (by omega)
    rw [readLineBytes, append_assoc, readSlice_bufferFull _ hnl hfragment]
    simp only
    rw [readLineLoop_line_eq rest _ fragment tail htail (by rw [hfragment, hmax]),
      length_append, hfragment, append_assoc]
    by_cases htaillen : tail.length < bufferSize * (maxLineLength / bufferSize)
    · rw [if_pos htaillen, if_pos (by omega)]
    · rw [if_neg htaillen, if_neg (by omega)]

/-- **What is read of a line that is cut off.** -/
theorem readLineBytes_open_eq (hinput : 10 ∉ input) :
    readLineBytes input =
      .error (if input.length < maxOpenLine then .eof else .lineExceedsLimit) := by
  have hmax : maxOpenLine = bufferSize + bufferSize * (maxLineLength / bufferSize) := rfl
  by_cases hlen : input.length < bufferSize
  · rw [readLineBytes, readSlice_eof hinput hlen, if_pos (by omega)]
  · obtain ⟨fragment, tail, rfl, hfragment, hnl, htail⟩ := exists_fragment hinput (by omega)
    rw [readLineBytes, readSlice_bufferFull _ hnl hfragment]
    simp only
    rw [readLineLoop_open_eq _ fragment tail htail (by rw [hfragment, hmax]), length_append,
      hfragment]
    by_cases htaillen : tail.length < bufferSize * (maxLineLength / bufferSize)
    · rw [if_pos htaillen, if_pos (by omega)]
    · rw [if_neg htaillen, if_neg (by omega)]

/-- A line that is read was terminated. -/
theorem readLineBytes_ok {rest : Bytes} (h : readLineBytes input = .ok (content, rest)) :
    input = content ++ (crlf ++ rest) ∧ 10 ∉ content ∧ content.length + 1 < maxOpenLine := by
  by_cases hnl : 10 ∈ input
  · obtain ⟨line, after, rfl, hline⟩ := eq_append_cons_of_mem hnl
    rw [readLineBytes_line_eq after hline] at h
    split at h
    · rename_i hlen
      obtain ⟨content', htrim, hcontent⟩ := map_ok h
      cases hcontent
      have hsplit : line ++ [10] = (content ++ [13]) ++ [10] := by
        rw [trimCRLF_ok htrim, append_assoc]
        rfl
      obtain rfl := append_cancel_right hsplit
      refine ⟨by simp [crlf], fun hmem => hline (mem_append_left _ hmem), ?_⟩
      rw [length_append] at hlen
      exact hlen
    · cases h
  · rw [readLineBytes_open_eq hnl] at h
    cases h

theorem readLineBytes_content (rest : Bytes) (hcontent : 10 ∉ content)
    (hlen : content.length + 1 < maxOpenLine) :
    readLineBytes (content ++ (crlf ++ rest)) = .ok (content, rest) := by
  have hline : 10 ∉ content ++ [13] := by simp [hcontent]
  have hsplit : content ++ (crlf ++ rest) = (content ++ [13]) ++ 10 :: rest := by simp [crlf]
  have htrim := trimCRLF_append_crlf content
  rw [hsplit, readLineBytes_line_eq _ hline, if_pos (by rw [length_append]; exact hlen),
    show content ++ [13] ++ [10] = content ++ crlf by simp [crlf], htrim]
  rfl

end Stash
