import Stash.RespFrames

/-!
# Decoding a buffer

`protocol.Decode` reads one value from the front of a buffer and says how many bytes it took.  It
shares the grammar with the streaming parser, but it has the whole buffer at hand: a line may be as
long as the buffer, and no limit is set on the length of a bulk string or of an array.  Only the
nesting of arrays is bounded.

A buffer that ends before its value does is reported as incomplete, with the number of bytes that
are needed at least when a length prefix tells.

Encoding a value and decoding it gives the value back, as far as the wire form tells values apart
(`Value.norm`), and takes exactly the bytes of the encoding.
-/

namespace Stash

open DecimalText List Value

/-- The errors of `Decode`. -/
inductive DecodeError where
  /-- `ErrIncomplete`, or an `IncompleteError` with its `Need` -/
  | incomplete (need : Option Nat)
  /-- any other error is permanent -/
  | permanent (err : ParseError)
  deriving DecidableEq, Repr

/-- `incompleteNeed`; the sum was computed in machine integers. -/
def incompleteNeed (total : Int) : DecodeError :=
  if wrap64 total ≤ 0 then .incomplete none else .incomplete (some (wrap64 total).toNat)

/-- `decodeLine`: the line and the number of bytes it takes with its terminator. -/
def decodeLine (buf : Bytes) : Except DecodeError (Bytes × Nat) :=
  match buf.findIdx? (· = 10) with
  | none => .error (.incomplete none)
  | some idx => do
    let content ← (trimCRLF (buf.take (idx + 1))).mapError .permanent
    return (content, idx + 1)

/-- A value that is one line: the marker and what is behind it. -/
def decodeLineValue (fromLine : Bytes → Except ParseError Value) (buf : Bytes) :
    Except DecodeError (Value × Nat) := do
  let (line, n) ← decodeLine (buf.drop 1)
  let value ← (fromLine line).mapError .permanent
  return (value, 1 + n)

/-- The length line of a bulk string or an array, and the bytes consumed so far. -/
def decodeLength (context : ErrorContext) (buf : Bytes) : Except DecodeError (Int × Nat) := do
  let (line, n) ← decodeLine (buf.drop 1)
  let length ← (parseDecimalInt line).mapError fun err => .permanent (.wrap context err)
  return (length, 1 + n)

def decodeBulkString (buf : Bytes) : Except DecodeError (Value × Nat) := do
  let (length, consumed) ← decodeLength .bulkLength buf
  if length = -1 then return (.bulkString [] true, consumed)
  else if length < -1 then .error (.permanent (.invalidBulkLength length))
  else
    let remaining := buf.drop consumed
    if length > (remaining.length : Int) - 2 then .error (incompleteNeed (consumed + length + 2))
    else if (remaining.drop length.toNat).take 2 = crlf then
      return (.bulkString (remaining.take length.toNat) false, consumed + length.toNat + 2)
    else .error (.permanent (.wrap .bulkTerminator .missingCRLF))

/-- The element loop of `decodeArray`: `count` more elements, the next of them number `index`. -/
def decodeElements (decodeOne : Bytes → Except DecodeError (Value × Nat)) (buf : Bytes) :
    Nat → Nat → Nat → Except DecodeError (List Value × Nat)
  | 0, _, consumed => .ok ([], consumed)
  | count + 1, index, consumed =>
    match decodeOne (buf.drop consumed) with
    | .error (.incomplete (some need)) => .error (incompleteNeed (consumed + need))
    | .error (.incomplete none) => .error (.incomplete none)
    | .error (.permanent err) => .error (.permanent (.wrap (.arrayElement index) err))
    | .ok (element, n) => do
      let (elements, consumed) ← decodeElements decodeOne buf count (index + 1) (consumed + n)
      return (element :: elements, consumed)

/-- `decodeArray` for a decoder of the elements. -/
def decodeArray (decodeOne : Bytes → Except DecodeError (Value × Nat)) (buf : Bytes) :
    Except DecodeError (Value × Nat) := do
  let (count, consumed) ← decodeLength .arrayLength buf
  if count = -1 then return (.array [] true, consumed)
  else if count < -1 then .error (.permanent (.invalidArrayLength count))
  else do
    let (elements, consumed) ← decodeElements decodeOne buf count.toNat 0 consumed
    return (.array elements false, consumed)

/-- `decode` at depth `maxNestingDepth - levels`. -/
def decodeValue (levels : Nat) (buf : Bytes) : Except DecodeError (Value × Nat) :=
  match buf with
  | [] => .error (.incomplete none)
  | marker :: _ =>
    match marker with
    | 43 => decodeLineValue (fun line => .ok (.simpleString line)) buf
    | 45 => decodeLineValue (fun line => .ok (.errorValue line)) buf
    | 58 => decodeLineValue integerFromLine buf
    | 35 => decodeLineValue booleanFromMarker buf
    | 95 => decodeLineValue nullFromPayload buf
    | 36 => decodeBulkString buf
    | 42 =>
      match levels with
      | 0 => .error (.permanent .nestingExceedsLimit)
      | levels + 1 => decodeArray (decodeValue levels) buf
    | other => .error (.permanent (.unsupportedPrefix other))

/-- `Decode`. -/
def decode (buf : Bytes) : Except DecodeError (Value × Nat) :=
  decodeValue maxNestingDepth buf

/-! ## Values that have a wire form -/

mutual

/-- The number of array levels of a value.  What hides behind a null flag is not sent. -/
def Value.nesting : Value → Nat
  | .array elements isNull => if isNull then 1 else 1 + nestingAll elements
  | _ => 0

def Value.nestingAll : List Value → Nat
  | [] => 0
  | value :: rest => max value.nesting (nestingAll rest)

end

mutual

/-- No payload of a simple string or an error contains a newline. -/
def Value.NewlineFree : Value → Prop
  | .simpleString value => 10 ∉ value
  | .errorValue message => 10 ∉ message
  | .array elements isNull => isNull = true ∨ Value.AllNewlineFree elements
  | _ => True

def Value.AllNewlineFree : List Value → Prop
  | [] => True
  | value :: rest => value.NewlineFree ∧ Value.AllNewlineFree rest

end

/-- The lengths of a value are machine integers: its encoding is a slice. -/
def Value.Representable (value : Value) : Prop :=
  value.encode.length < 2 ^ 63

/-! ## Lines -/

theorem decodeLine_append {content : Bytes} (h : 10 ∉ content) (rest : Bytes) :
    decodeLine (content ++ crlf ++ rest) = .ok (content, content.length + 2) := by
  have hindex : (content ++ crlf ++ rest).findIdx? (· = 10) = some (content.length + 1) := by
    have hnone : content.findIdx? (· = 10) = none := by
      rw [List.findIdx?_eq_none_iff]
      intro b hb
      have hne : b ≠ 10 := fun heq => h (heq ▸ hb)
      exact decide_eq_false hne
    have hcrlf : (crlf ++ rest).findIdx? (· = 10) = some 1 := by
      simp [crlf, List.findIdx?_cons]
    rw [append_assoc, List.findIdx?_append, hnone, hcrlf, Option.none_or, Option.map_some,
      Nat.add_comm 1]
  have htake : (content ++ crlf ++ rest).take (content.length + 1 + 1) = content ++ crlf := by
    rw [take_left' (by simp [crlf])]
  unfold decodeLine
  rw [hindex]
  simp only [htake, trimCRLF_append_crlf]
  rfl

theorem decodeLineValue_append {fromLine : Bytes → Except ParseError Value} {marker : UInt8}
    {content : Bytes} (h : 10 ∉ content) {value : Value} (hvalue : fromLine content = .ok value)
    (rest : Bytes) :
    decodeLineValue fromLine (marker :: (content ++ crlf) ++ rest) =
      .ok (value, (marker :: (content ++ crlf)).length) := by
  unfold decodeLineValue
  rw [cons_append, drop_one, tail_cons, decodeLine_append h rest]
  change (do
    let value ← (fromLine content).mapError DecodeError.permanent
    return (value, 1 + (content.length + 2))) = _
  rw [hvalue]
  simp only [crlf, length_cons, length_append, length_nil]
  rw [Nat.add_comm 1 (content.length + 2)]
  rfl

theorem decodeLength_append (context : ErrorContext) (marker : UInt8) {length : Int}
    (hlo : -2 ^ 63 ≤ length) (hhi : length < 2 ^ 63) (rest : Bytes) :
    decodeLength context (appendPrefixedIntLine marker length ++ rest) =
      .ok (length, (appendPrefixedIntLine marker length).length) := by
  unfold decodeLength appendPrefixedIntLine
  rw [cons_append, drop_one, tail_cons,
    decodeLine_append (newline_notMem_formatInt length) rest]
  change (do
    let length' ← (parseDecimalInt (formatInt length)).mapError fun err =>
      DecodeError.permanent (.wrap context err)
    return (length', 1 + ((formatInt length).length + 2))) = _
  rw [parseDecimalInt_formatInt hlo hhi]
  simp only [crlf, length_cons, length_append, length_nil]
  rw [Nat.add_comm 1 ((formatInt length).length + 2)]
  rfl

/-! ## Bulk strings -/

theorem decodeBulkString_encodeBulk {data : Bytes} (hsize : data.length < 2 ^ 63) (rest : Bytes) :
    decodeBulkString (encodeBulk data ++ rest) =
      .ok (.bulkString data false, (encodeBulk data).length) := by
  have hlength : decodeLength .bulkLength (encodeBulk data ++ rest) =
      .ok ((data.length : Int), (appendPrefixedIntLine 36 data.length).length) := by
    rw [encodeBulk, append_assoc]
    exact decodeLength_append .bulkLength 36 (by omega) (by omega) _
  have hremaining : (encodeBulk data ++ rest).drop (appendPrefixedIntLine 36 data.length).length =
      data ++ (crlf ++ rest) := by
    rw [encodeBulk, append_assoc, drop_left, append_assoc]
  have hroom : ¬(data.length : Int) > ((data ++ (crlf ++ rest)).length : Int) - 2 := by
    simp only [crlf, length_append, length_cons, length_nil]
    omega
  have hterminator : (crlf ++ rest).take 2 = crlf := take_left' rfl
  simp only [decodeBulkString, hlength, bind, Except.bind]
  rw [if_neg (by omega), if_neg (by omega), hremaining]
  simp only [Int.toNat_natCast]
  rw [if_neg hroom, drop_left, if_pos hterminator, take_left]
  simp only [encodeBulk, crlf, length_append, length_cons, length_nil]
  rfl

theorem decodeValue_nullBulk (levels : Nat) (rest : Bytes) :
    decodeValue levels (ascii "$-1\r\n" ++ rest) = .ok (.bulkString [] true, 5) := by
  rw [decodeValue.eq_def]
  have hnull : ascii "$-1\r\n" = appendPrefixedIntLine 36 (-1) := by decide
  unfold decodeBulkString
  rw [hnull, decodeLength_append .bulkLength 36 (by decide) (by decide) rest]
  rfl

theorem decodeValue_encodeBulk (levels : Nat) {data : Bytes}
    (hsize : (encodeBulk data).length < 2 ^ 63) (rest : Bytes) :
    decodeValue levels (encodeBulk data ++ rest) =
      .ok (.bulkString data false, (encodeBulk data).length) := by
  have hlength := length_encodeBulk data
  rw [decodeValue.eq_def]
  exact decodeBulkString_encodeBulk (by omega) rest

/-! ## The round trip -/

/-- The lengths in front of a value are below the length of its encoding. -/
theorem length_le_encodeValues (values : List Value) :
    values.length ≤ (encodeValues values).length := by
  induction values with
  | nil => exact Nat.zero_le _
  | cons value values ih =>
    have hpos := encodedLen_pos value
    rw [← length_encode] at hpos
    simp only [encodeValues, length_append, length_cons]
    omega

mutual

/-- **Decoding an encoded value**, by induction over the value, with any bytes behind it. -/
theorem decodeValue_encode : (value : Value) → (levels : Nat) → value.nesting ≤ levels →
    value.NewlineFree → value.Representable → (rest : Bytes) →
    decodeValue levels (value.encode ++ rest) = .ok (value.norm, value.encode.length)
  | .simpleString value, _, _, hfree, _, rest => by
    rw [decodeValue.eq_def]
    exact decodeLineValue_append hfree rfl rest
  | .errorValue message, _, _, hfree, _, rest => by
    rw [decodeValue.eq_def]
    exact decodeLineValue_append hfree rfl rest
  | .integer value, _, _, _, _, rest => by
    have hparse : parseIntBytes (formatInt value.toInt) = .ok value :=
      (parseIntBytes_ok_iff _ _).mpr (readInt_formatInt _)
    have hinteger : integerFromLine (formatInt value.toInt) = .ok (.integer value) := by
      rw [integerFromLine, hparse]
    rw [decodeValue.eq_def]
    exact decodeLineValue_append (newline_notMem_formatInt _) hinteger rest
  | .bulkString data isNull, levels, _, _, hsize, rest => by
    cases isNull with
    | true => exact decodeValue_nullBulk levels rest
    | false => exact decodeValue_encodeBulk levels hsize rest
  | .textBulkString value isNull, levels, _, _, hsize, rest => by
    cases isNull with
    | true => exact decodeValue_nullBulk levels rest
    | false => exact decodeValue_encodeBulk levels hsize rest
  | .boolean value, _, _, _, _, rest => by
    have hline : ∀ payload : Bytes, 10 ∉ payload → booleanFromMarker payload = .ok (.boolean value) →
        decodeLineValue booleanFromMarker (35 :: (payload ++ crlf) ++ rest) = _ :=
      fun payload hpayload hvalue => decodeLineValue_append hpayload hvalue rest
    rw [decodeValue.eq_def]
    cases value with
    | true => exact hline (ascii "t") (by decide) rfl
    | false => exact hline (ascii "f") (by decide) rfl
  | .null, _, _, _, _, rest => by
    rw [decodeValue.eq_def]
    exact @decodeLineValue_append nullFromPayload 95 [] not_mem_nil _ rfl rest
  | .array elements true, 0, hnesting, _, _, _ => absurd hnesting (Nat.not_succ_le_zero 0)
  | .array elements false, 0, hnesting, _, _, _ => by
    rw [nesting, if_neg Bool.false_ne_true] at hnesting
    omega
  | .array elements true, levels + 1, _, _, _, rest => by
    have hnull : ascii "*-1\r\n" = appendPrefixedIntLine 42 (-1) := by decide
    change decodeArray (decodeValue levels) (ascii "*-1\r\n" ++ rest) = _
    unfold decodeArray
    rw [hnull, decodeLength_append .arrayLength 42 (by decide) (by decide) rest]
    rfl
  | .array elements false, levels + 1, hnesting, hfree, hsize, rest => by
    have hcount := length_le_encodeValues elements
    rw [nesting, if_neg Bool.false_ne_true] at hnesting
    rw [Value.Representable] at hsize
    have hencode : (array elements false).encode =
        appendPrefixedIntLine 42 elements.length ++ encodeValues elements := by
      rw [encode, if_neg Bool.false_ne_true]
    rw [hencode, length_append] at hsize
    have hall := decodeElements_encode elements levels (by omega)
      (hfree.resolve_left Bool.false_ne_true) (by omega) 0
      (appendPrefixedIntLine 42 elements.length) rest
    change decodeArray (decodeValue levels) ((array elements false).encode ++ rest) = _
    rw [hencode, append_assoc, decodeArray,
      decodeLength_append .arrayLength 42 (by omega) (by omega) (encodeValues elements ++ rest)]
    simp only [bind, Except.bind]
    rw [if_neg (by omega), if_neg (by omega), Int.toNat_natCast, hall, length_append,
      Value.norm, if_neg Bool.false_ne_true]
    rfl

theorem decodeElements_encode : (values : List Value) → (levels : Nat) →
    nestingAll values ≤ levels → Value.AllNewlineFree values →
    (encodeValues values).length < 2 ^ 63 → (index : Nat) → (before rest : Bytes) →
    decodeElements (decodeValue levels) (before ++ (encodeValues values ++ rest))
        values.length index before.length =
      .ok (normAll values, before.length + (encodeValues values).length)
  | [], _, _, _, _, _, _, _ => rfl
  | value :: values, levels, hnesting, hfree, hsize, index, before, rest => by
    simp only [encodeValues, length_append] at hsize
    have hone := decodeValue_encode value levels (le_trans (le_max_left _ _) hnesting) hfree.1
      (show value.encode.length < 2 ^ 63 by omega) (encodeValues values ++ rest)
    -- the elements that are left stand behind the longer front
    have hrest := decodeElements_encode values levels (le_trans (le_max_right _ _) hnesting) hfree.2
      (by omega) (index + 1) (before ++ value.encode) rest
    rw [length_append] at hrest
    simp only [encodeValues, length_cons, decodeElements, append_assoc,
      drop_left] at hrest ⊢
    rw [hone]
    change (do
      let (elements, consumed) ← decodeElements (decodeValue levels) _ values.length (index + 1)
        (before.length + value.encode.length)
      return (value.norm :: elements, consumed)) = _
    rw [hrest]
    simp only [normAll, length_append, Nat.add_assoc]
    rfl

end

/-- **The round trip**: a value whose arrays nest at most as deep as the decoder follows is decoded
from its encoding, whatever comes behind, and takes exactly the bytes of the encoding; and the size
of what was read is the number of bytes that were written. -/
theorem decode_encode (value : Value) (hsize : value.Representable)
    (hnesting : value.nesting ≤ maxNestingDepth) (hfree : value.NewlineFree) (rest : Bytes) :
    decode (value.encode ++ rest) = .ok (value.norm, value.encode.length) ∧
      value.norm.encodedLen = value.encode.length := by
  refine ⟨decodeValue_encode value maxNestingDepth hnesting hfree hsize rest, ?_⟩
  rw [encodedLen_norm, length_encode]

/-- A reply with an error and a null in it, and another frame behind it. -/
theorem decode_encode_reply :
    let reply : Value := .array [.errorValue (ascii "ERR no"), .textBulkString [] true] false
    (reply.Representable ∧ reply.nesting ≤ maxNestingDepth ∧ reply.NewlineFree) ∧
      decode (reply.encode ++ ascii "+OK\r\n") = .ok (reply.norm, reply.encode.length) ∧
      reply.norm.encodedLen = reply.encode.length := by
  have hsize : (array [.errorValue (ascii "ERR no"), .textBulkString [] true] false).Representable := by
    unfold Value.Representable
    decide
  have hfree : (array [.errorValue (ascii "ERR no"), .textBulkString [] true] false).NewlineFree :=
    .inr ⟨show 10 ∉ ascii "ERR no" by decide, trivial, trivial⟩
  exact ⟨⟨hsize, by decide, hfree⟩, decode_encode _ hsize (by decide) hfree _⟩

end Stash
