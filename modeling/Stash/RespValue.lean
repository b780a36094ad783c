import Stash.DecimalText
import Stash.Incremental

/-!
# RESP values and their wire form

The values the server exchanges (`protocol.Value`) and the encoder that writes them.  The
functions `Encode`, `AppendValue` and `WriteValue` of the source emit the same bytes; the model
has one function for them.  A Go string and a Go byte slice are both a list of bytes here, so a
`TextBulkString` differs from a `BulkString` only by its constructor.
-/

namespace Stash

open DecimalText List

abbrev Bytes := List UInt8

/-- The equality that `key ∈ keys` is decided with, under one name for all modules. -/
instance lawfulBEqBytes : LawfulBEq Bytes :=
  inferInstance

export Incremental (bind_ok bind_error map_ok mapError_ok)

/-! ## Values -/

/-- `protocol.Value`.  The `null` flags of bulk strings and arrays are separate from the payload,
as in the source. -/
inductive Value where
  | simpleString (value : Bytes)
  | errorValue (message : Bytes)
  | integer (value : Int64)
  | bulkString (data : Bytes) (null : Bool)
  | textBulkString (value : Bytes) (null : Bool)
  | array (elements : List Value) (null : Bool)
  | boolean (value : Bool)
  | null
  deriving Repr

/-- A non-null bulk string. -/
def Value.bulk (data : Bytes) : Value :=
  .bulkString data false

/-- A non-null text bulk string. -/
def Value.text (value : Bytes) : Value :=
  .textBulkString value false

def crlf : Bytes :=
  [13, 10]

def appendPrefixedStringLine (marker : UInt8) (value : Bytes) : Bytes :=
  marker :: (value ++ crlf)

def appendPrefixedIntLine (marker : UInt8) (value : Int) : Bytes :=
  marker :: (formatInt value ++ crlf)

/-- `$`, the length, the payload, CRLF. -/
def encodeBulk (data : Bytes) : Bytes :=
  appendPrefixedIntLine 36 data.length ++ (data ++ crlf)

mutual

/-- `Encode`. -/
def Value.encode : Value → Bytes
  | .simpleString value => appendPrefixedStringLine 43 value
  | .errorValue message => appendPrefixedStringLine 45 message
  | .integer value => appendPrefixedIntLine 58 value.toInt
  | .bulkString data isNull => if isNull then ascii "$-1\r\n" else encodeBulk data
  | .textBulkString value isNull => if isNull then ascii "$-1\r\n" else encodeBulk value
  | .array elements isNull =>
    if isNull then ascii "*-1\r\n"
    else appendPrefixedIntLine 42 elements.length ++ Value.encodeValues elements
  | .boolean value => if value then ascii "#t\r\n" else ascii "#f\r\n"
  | .null => ascii "_\r\n"

/-- `EncodeValues`: the encodings one after the other. -/
def Value.encodeValues : List Value → Bytes
  | [] => []
  | value :: rest => value.encode ++ Value.encodeValues rest

end

mutual

/-- The value a reader gets back for an encoded value: text bulk strings become bulk strings, and
the payload behind a null flag is forgotten. -/
def Value.norm : Value → Value
  | .bulkString data isNull => if isNull then .bulkString [] true else .bulkString data false
  | .textBulkString value isNull => if isNull then .bulkString [] true else .bulkString value false
  | .array elements isNull => if isNull then .array [] true else .array (Value.normAll elements) false
  | .simpleString value => .simpleString value
  | .errorValue message => .errorValue message
  | .integer value => .integer value
  | .boolean value => .boolean value
  | .null => .null

def Value.normAll : List Value → List Value
  | [] => []
  | value :: rest => value.norm :: Value.normAll rest

end

mutual

/-- `EncodedLen`. -/
def Value.encodedLen : Value → Nat
  | .simpleString value => 1 + value.length + 2
  | .errorValue message => 1 + message.length + 2
  | .integer value => 1 + (formatInt value.toInt).length + 2
  | .bulkString data isNull =>
    if isNull then 5 else 1 + (formatInt data.length).length + 2 + data.length + 2
  | .textBulkString value isNull =>
    if isNull then 5 else 1 + (formatInt value.length).length + 2 + value.length + 2
  | .array elements isNull =>
    if isNull then 5
    else 1 + (formatInt elements.length).length + 2 + Value.encodedLenAll elements
  | .boolean _ => 4
  | .null => 3

def Value.encodedLenAll : List Value → Nat
  | [] => 0
  | value :: rest => value.encodedLen + Value.encodedLenAll rest

end

/-- Why `Bytes` refuses a value. -/
inductive CoerceError where
  | nullBulkString
  | null
  | unsupportedType (name : String)
  deriving DecidableEq, Repr

/-- The message of the refusal. -/
def CoerceError.error : CoerceError → String
  | nullBulkString => "protocol: null bulk string cannot be coerced to bytes"
  | null => "protocol: null cannot be coerced to bytes"
  | unsupportedType name => "protocol: value type " ++ name ++ " cannot be coerced to bytes"

/-- `protocol.Bytes`: the bytes of a command token. -/
def Value.bytes : Value → Except CoerceError Bytes
  | .bulkString data isNull => if isNull then .error .nullBulkString else .ok data
  | .textBulkString value isNull => if isNull then .error .nullBulkString else .ok value
  | .simpleString value => .ok value
  | .integer value => .ok (formatInt value.toInt)
  | .boolean value => .ok (if value then ascii "1" else ascii "0")
  | .null => .error .null
  | .errorValue _ => .error (.unsupportedType "protocol.ErrorValue")
  | .array _ _ => .error (.unsupportedType "protocol.Array")

/-- A command frame: the array of the tokens as bulk strings. -/
def commandFrame (tokens : List Bytes) : Value :=
  .array (tokens.map Value.bulk) false

/-! ## Sizes -/

theorem length_normAll (values : List Value) : (Value.normAll values).length = values.length := by
  induction values with
  | nil => rfl
  | cons value values ih => simp only [Value.normAll, length_cons, ih]

theorem length_encodeBulk (data : Bytes) :
    (encodeBulk data).length = 1 + (formatInt data.length).length + 2 + data.length + 2 := by
  simp only [encodeBulk, appendPrefixedIntLine, crlf, length_append, length_cons,
    length_nil]
  omega

mutual

/-- **`EncodedLen` is the length of the encoding.** -/
theorem length_encode : (value : Value) → value.encode.length = value.encodedLen
  | .simpleString value => by
    simp only [Value.encode, Value.encodedLen, appendPrefixedStringLine, crlf, length_append,
      length_cons, length_nil]
    omega
  | .errorValue message => by
    simp only [Value.encode, Value.encodedLen, appendPrefixedStringLine, crlf, length_append,
      length_cons, length_nil]
    omega
  | .integer value => by
    simp only [Value.encode, Value.encodedLen, appendPrefixedIntLine, crlf, length_append,
      length_cons, length_nil]
    omega
  | .bulkString data isNull => by
    cases isNull with
    | true => rfl
    | false => exact length_encodeBulk data
  | .textBulkString value isNull => by
    cases isNull with
    | true => rfl
    | false => exact length_encodeBulk value
  | .array elements isNull => by
    cases isNull with
    | true => rfl
    | false =>
      have hall := length_encodeValues elements
      simp only [Value.encode, Value.encodedLen, appendPrefixedIntLine, crlf, length_append,
        length_cons, length_nil, Bool.false_eq_true, if_false, hall]
      omega
  | .boolean value => by cases value <;> rfl
  | .null => rfl

theorem length_encodeValues : (values : List Value) →
    (Value.encodeValues values).length = Value.encodedLenAll values
  | [] => rfl
  | value :: rest => by
    simp only [Value.encodeValues, Value.encodedLenAll, length_append, length_encode value,
      length_encodeValues rest]

end

mutual

/-- What a reader gets back has the size of what was sent. -/
theorem encodedLen_norm : (value : Value) → value.norm.encodedLen = value.encodedLen
  | .bulkString data isNull => by cases isNull <;> simp [Value.norm, Value.encodedLen]
  | .textBulkString value isNull => by cases isNull <;> simp [Value.norm, Value.encodedLen]
  | .array elements isNull => by
    cases isNull with
    | true => simp [Value.norm, Value.encodedLen]
    | false =>
      simp [Value.norm, Value.encodedLen, encodedLenAll_normAll elements, length_normAll]
  | .simpleString value => rfl
  | .errorValue message => rfl
  | .integer value => rfl
  | .boolean value => rfl
  | .null => rfl

theorem encodedLenAll_normAll : (values : List Value) →
    Value.encodedLenAll (Value.normAll values) = Value.encodedLenAll values
  | [] => rfl
  | value :: rest => by
    simp only [Value.normAll, Value.encodedLenAll, encodedLen_norm value,
      encodedLenAll_normAll rest]

end

theorem encodedLen_pos (value : Value) : 0 < value.encodedLen := by
  cases value with
  | simpleString | errorValue | integer | boolean | null =>
    simp only [Value.encodedLen]
    omega
  | bulkString data isNull | textBulkString data isNull | array data isNull =>
    simp only [Value.encodedLen]
    split <;> omega

/-! ## Encodings of command frames -/

variable (name : Bytes) (data : Bytes) (value : Bytes) (tokens : List Bytes) (args : List Bytes)

@[simp] theorem encode_bulk : (Value.bulk data).encode = encodeBulk data := by
  simp [Value.bulk, Value.encode]

@[simp] theorem encode_text : (Value.text value).encode = encodeBulk value := by
  simp [Value.text, Value.encode]

@[simp] theorem bytes_bulk : (Value.bulk data).bytes = .ok data := by
  simp [Value.bulk, Value.bytes]

@[simp] theorem norm_bulk : (Value.bulk data).norm = Value.bulk data := by
  simp [Value.bulk, Value.norm]

@[simp] theorem norm_text : (Value.text value).norm = Value.bulk value := by
  simp [Value.bulk, Value.text, Value.norm]

theorem encodeValues_append (xs ys : List Value) :
    Value.encodeValues (xs ++ ys) = Value.encodeValues xs ++ Value.encodeValues ys := by
  induction xs with
  | nil => simp [Value.encodeValues]
  | cons x xs ih => simp [Value.encodeValues, ih]

theorem normAll_eq_map (xs : List Value) : Value.normAll xs = xs.map Value.norm := by
  induction xs with
  | nil => simp [Value.normAll]
  | cons x xs ih => simp [Value.normAll, ih]

theorem encodeValues_bulk_cons (token : Bytes) (tokens : List Bytes) :
    Value.encodeValues ((token :: tokens).map Value.bulk) =
      encodeBulk token ++ Value.encodeValues (tokens.map Value.bulk) := by
  simp [Value.encodeValues]

theorem encode_commandFrame :
    (commandFrame tokens).encode =
      appendPrefixedIntLine 42 tokens.length ++ Value.encodeValues (tokens.map Value.bulk) := by
  simp [commandFrame, Value.encode]

theorem norm_commandFrame : (commandFrame tokens).norm = commandFrame tokens := by
  simp [commandFrame, Value.norm, normAll_eq_map]

/-- A frame whose name is written as text encodes like the frame of its tokens. -/
theorem encode_text_cons :
    (Value.array (Value.text name :: args.map Value.bulk) false).encode =
      (commandFrame (name :: args)).encode := by
  simp [commandFrame, Value.encode, Value.encodeValues]

theorem norm_text_cons :
    (Value.array (Value.text name :: args.map Value.bulk) false).norm =
      commandFrame (name :: args) := by
  simp [commandFrame, Value.norm, normAll_eq_map]

end Stash
