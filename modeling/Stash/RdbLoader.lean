import Stash.Keyspace
import Stash.RespParser

/-!
# Loading an RDB file

`rdb.LoadReader` reads a header and then one item after the other: auxiliary fields and sizes, which
are skipped, string keys, which are stored, and the end of the file.  Strings may be plain, encoded
integers or LZF-compressed.  Everything else is refused.

The loop hands each key to a callback, so that the store can be plugged in as well as a callback
that only records the keys.  What `BuildSnapshot` writes is read back key by key (`load_buildSnapshot`).
-/

namespace Stash

open DecimalText List Function Store

namespace Rdb

/-! ## Errors -/

/-- What the loader was reading when it failed. -/
inductive RdbContext where
  | header
  | marker
  | expireTime
  | expireTimeMS
  | auxKey
  | auxValue
  | resizeMain
  | resizeExpiry
  | selectDB
  | valueType (opcodeName : String)
  | key
  | stringValue
  | lzfCompressedLength
  | lzfUncompressedLength
  | lzfPayload
  deriving DecidableEq, Repr

inductive RdbError where
  /-- `io.EOF` -/
  | eof
  /-- `io.ErrUnexpectedEOF` -/
  | unexpectedEOF
  /-- `ErrInvalidHeader`, for the magic bytes -/
  | invalidHeader (header : Bytes)
  /-- `ErrInvalidHeader`, for the version -/
  | unsupportedVersion (header : Bytes)
  | unsupportedDB (index : Nat)
  | unsupportedValueType (valueType : UInt8)
  | unsupportedOpcode (marker : UInt8)
  | expiryOverflow (millis : Nat)
  | checksumLength (length : Nat)
  | lengthExceedsLimit (length : Nat)
  | unsupportedStringEncoding (encoding : Nat)
  | encodedCompressedLength
  | encodedUncompressedLength
  | lzfLengthExceedsLimit (length : Nat)
  | truncatedLiteral
  | literalExceedsOutput
  | truncatedMatchLength
  | truncatedMatchOffset
  | invalidBackReference
  | matchExceedsOutput
  | outputLengthMismatch (got want : Nat)
  | storeKey (key : Bytes) (err : StorageError)
  | wrap (context : RdbContext) (err : RdbError)

/-! ## Reading bytes -/

/-- A step of the loader on the bytes that are left. -/
abbrev RdbReader := StateT Bytes (Except RdbError)

/-- `fmt.Errorf` around an error. -/
def within {α : Type} (context : RdbContext) (r : RdbReader α) : RdbReader α :=
  fun input => (r input).mapError (.wrap context)

def readByte : RdbReader UInt8
  | [] => .error .eof
  | b :: rest => .ok (b, rest)

/-- `io.ReadFull`. -/
def readFullBytes (count : Nat) : RdbReader Bytes := fun input =>
  if count ≤ input.length then .ok (input.take count, input.drop count)
  else .error (if input = [] then .eof else .unexpectedEOF)

/-- `io.ReadAll`. -/
def readAll : RdbReader Bytes := fun input => .ok (input, [])

/-- The number of bytes in big-endian order. -/
def bigEndian (bytes : Bytes) : Nat :=
  bytes.foldl (fun n b => n * 256 + b.toNat) 0

/-- The number of bytes in little-endian order. -/
def fromLittleEndian (bytes : Bytes) : Nat :=
  bigEndian bytes.reverse

/-- `readUint16LE`, `readUint32LE` and `readUint64LE`. -/
def readUintLE (width : Nat) : RdbReader Nat := do
  let raw ← readFullBytes width
  return fromLittleEndian raw

/-- A number of some bits, in two's complement. -/
def signed (bits n : Nat) : Int :=
  if n < 2 ^ (bits - 1) then n else n - 2 ^ bits

def maxRDBObjectLength : Nat := 512 * 1024 * 1024

/-- `readLength`: the length, and whether it is the number of an encoding instead. -/
def readLength : RdbReader (Nat × Bool) := do
  let first ← readByte
  match first.toNat / 64 with
  | 0 => return (first.toNat % 64, false)
  | 1 =>
    let second ← readByte
    return (first.toNat % 64 * 256 + second.toNat, false)
  | 2 =>
    let raw ← readFullBytes 4
    return (bigEndian raw, false)
  | _ => return (first.toNat % 64, true)

def readBytes (length : Nat) : RdbReader Bytes :=
  if length = 0 then return []
  else if maxRDBObjectLength < length then throw (.lengthExceedsLimit length)
  else readFullBytes length

/-! ## LZF -/

/-- The bytes of a back-reference, which may reach into what it writes itself. -/
def copyMatch (output : Bytes) (reference : Nat) : Nat → Bytes
  | 0 => output
  | count + 1 => copyMatch (output ++ [output.getD reference 0]) (reference + 1) count

/-- `decodeLZFLiteral`, on the input after the control byte: the output and the input left. -/
def decodeLZFLiteral (input output : Bytes) (outputLength control : Nat) :
    Except RdbError (Bytes × Bytes) :=
  let literalLength := control + 1
  if input.length < literalLength then .error .truncatedLiteral
  else if outputLength < output.length + literalLength then .error .literalExceedsOutput
  else .ok (output ++ input.take literalLength, input.drop literalLength)

/-- The length of a match: a seventh level is extended by a byte. -/
def lzfMatchLength (input : Bytes) (control : Nat) : Except RdbError (Nat × Bytes) :=
  if control / 32 = 7 then
    match input with
    | [] => .error .truncatedMatchLength
    | extra :: rest => .ok (7 + extra.toNat, rest)
  else .ok (control / 32, input)

/-- `decodeLZFMatch`, on the input after the control byte. -/
def decodeLZFMatch (input output : Bytes) (outputLength control : Nat) :
    Except RdbError (Bytes × Bytes) :=
  match lzfMatchLength input control with
  | .error err => .error err
  | .ok (_, []) => .error .truncatedMatchOffset
  | .ok (shortLength, offset :: rest) =>
    let back := control % 32 * 256 + offset.toNat + 1
    let matchLength := shortLength + 2
    if output.length < back then .error .invalidBackReference
    else if outputLength < output.length + matchLength then .error .matchExceedsOutput
    else .ok (copyMatch output (output.length - back) matchLength, rest)

variable {input rest : Bytes} {control : Nat} {e : StringSnapshotEntry} {l : Loaded}

theorem lzfMatchLength_rest_le {n : Nat}
    (h : lzfMatchLength input control = .ok (n, rest)) : rest.length ≤ input.length := by
  unfold lzfMatchLength at h
  split at h
  · split at h
    · cases h
    · cases h
      exact Nat.le_succ _
  · cases h
    exact Nat.le_refl _

variable {output output' : Bytes} {outputLength : Nat}

theorem decodeLZFMatch_rest_le
    (h : decodeLZFMatch input output outputLength control = .ok (output', rest)) :
    rest.length ≤ input.length := by
  unfold decodeLZFMatch at h
  split at h
  · cases h
  · cases h
  · rename_i offset rest' hlength
    have hle := lzfMatchLength_rest_le hlength
    simp only at h
    split at h
    · cases h
    split at h
    · cases h
    cases h
    exact (Nat.le_succ _).trans hle

theorem decodeLZFLiteral_rest_le
    (h : decodeLZFLiteral input output outputLength control = .ok (output', rest)) :
    rest.length ≤ input.length := by
  unfold decodeLZFLiteral at h
  simp only at h
  split at h
  · cases h
  split at h
  · cases h
  cases h
  rw [length_drop]
  exact Nat.sub_le _ _

/-- `decompressLZF`, from an output that is begun. -/
def decompressLZF (outputLength : Nat) (output input : Bytes) : Except RdbError Bytes :=
  match input with
  | [] =>
    if output.length = outputLength then .ok output
    else .error (.outputLengthMismatch output.length outputLength)
  | control :: rest =>
    match _h : (if control.toNat < 32 then decodeLZFLiteral rest output outputLength control.toNat
      else decodeLZFMatch rest output outputLength control.toNat) with
    | .error err => .error err
    | .ok (output', rest') => decompressLZF outputLength output' rest'
termination_by input.length
decreasing_by
  rw [length_cons, Nat.lt_succ_iff]
  split at _h
  · exact decodeLZFLiteral_rest_le _h
  · exact decodeLZFMatch_rest_le _h

/-! ## Strings and items -/

/-- The length of an LZF string, which must be plain. -/
def readPlainLength (context : RdbContext) (err : RdbError) : RdbReader Nat := do
  let (length, encoded) ← within context readLength
  if encoded then throw err else return length

def readLZFString : RdbReader Bytes := do
  let compressedLength ← readPlainLength .lzfCompressedLength .encodedCompressedLength
  let uncompressedLength ← readPlainLength .lzfUncompressedLength .encodedUncompressedLength
  if maxRDBObjectLength < uncompressedLength then throw (.lzfLengthExceedsLimit uncompressedLength)
  else
    let compressed ← within .lzfPayload (readBytes compressedLength)
    decompressLZF uncompressedLength [] compressed

/-- An encoded integer, in decimal. -/
def readIntegerString (width : Nat) : RdbReader Bytes := do
  let n ← readUintLE width
  return formatInt (signed (8 * width) n)

def readString : RdbReader Bytes := do
  let (length, encoded) ← readLength
  if !encoded then readBytes length
  else
    match length with
    | 0 => readIntegerString 1
    | 1 => readIntegerString 2
    | 2 => readIntegerString 4
    | 3 => readLZFString
    | _ => throw (.unsupportedStringEncoding length)

def isValueType (marker : UInt8) : Bool :=
  [0, 1, 2, 3, 4, 9, 10, 11, 12, 13, 14].contains marker

/-- What a marker introduces. -/
inductive RdbItem where
  /-- nothing that is kept -/
  | skipped
  | entry (entry : StringSnapshotEntry)
  | endOfFile

/-- `readEntry`, up to what is done with the key. -/
def readEntry (valueType : UInt8) (expiresAt : Int) : RdbReader RdbItem :=
  if valueType ≠ valueTypeString then throw (.unsupportedValueType valueType)
  else do
    let key ← within .key readString
    let value ← within .stringValue readString
    return .entry ⟨key, value, expiresAt⟩

def readExpiringEntry (opcodeName : String) (expiresAt : Int) : RdbReader RdbItem := do
  let valueType ← within (.valueType opcodeName) readByte
  readEntry valueType expiresAt

def opcodeAux : UInt8 := 0xFA
def opcodeResizeDB : UInt8 := 0xFB
def opcodeExpireTimeSec : UInt8 := 0xFD

def skipAuxField : RdbReader RdbItem := do
  let _ ← within .auxKey readString
  let _ ← within .auxValue readString
  return .skipped

def skipResizeDBMetadata : RdbReader RdbItem := do
  let _ ← within .resizeMain readLength
  let _ ← within .resizeExpiry readLength
  return .skipped

def readDatabaseSelection : RdbReader RdbItem := do
  let (dbIndex, _) ← within .selectDB readLength
  if dbIndex ≠ 0 then throw (.unsupportedDB dbIndex) else return .skipped

/-- `validatedExpiryMillis`. -/
def validatedExpiryMillis (expiresAtMillis : Nat) : RdbReader Int :=
  if 2 ^ 63 ≤ expiresAtMillis then throw (.expiryOverflow expiresAtMillis)
  else return expiresAtMillis

/-- `consumeEOF`: nothing or a checksum of eight bytes may follow. -/
def consumeEOF : RdbReader RdbItem := do
  let rest ← readAll
  if rest.length ≠ 0 ∧ rest.length ≠ 8 then throw (.checksumLength rest.length)
  else return .endOfFile

/-- `readValueMarker`. -/
def readValueMarker (marker : UInt8) : RdbReader RdbItem :=
  if isValueType marker then readEntry marker 0 else throw (.unsupportedOpcode marker)

/-- `processMarker`. -/
def processMarker (marker : UInt8) : RdbReader RdbItem :=
  if marker = opcodeAux then skipAuxField
  else if marker = opcodeResizeDB then skipResizeDBMetadata
  else if marker = opcodeSelectDB then readDatabaseSelection
  else if marker = opcodeExpireTimeSec then do
    let expiresAtSeconds ← within .expireTime (readUintLE 4)
    readExpiringEntry "EXPIRETIME" (expiresAtSeconds * 1000)
  else if marker = opcodeExpireTimeMS then do
    let expiresAtMillis ← within .expireTimeMS (readUintLE 8)
    let validatedMillis ← validatedExpiryMillis expiresAtMillis
    readExpiringEntry "EXPIRETIMEMS" validatedMillis
  else if marker = opcodeEOF then consumeEOF
  else readValueMarker marker

/-- One turn of the loop of `load`. -/
def readItem : RdbReader RdbItem := do
  let marker ← within .marker readByte
  processMarker marker

def rdbMaxSupportedVersion : Nat := 11

/-- `validateHeader`: the version is what `strconv.Atoi` reads. -/
def validateHeader (header : Bytes) : RdbReader Unit :=
  if header.take 5 ≠ ascii "REDIS" then throw (.invalidHeader header)
  else
    match readInt64 (header.drop 5) with
    | some version =>
      if 1 ≤ version ∧ version ≤ rdbMaxSupportedVersion then return ()
      else throw (.unsupportedVersion header)
    | none => throw (.unsupportedVersion header)

/-! ## The loader makes progress -/

/-- What a step leaves is no longer than what it was given. -/
def Shortens {α : Type} (r : RdbReader α) : Prop :=
  ∀ input a rest, r input = .ok (a, rest) → rest.length ≤ input.length

section Progress

variable {α β : Type}

theorem shortens_pure (a : α) : Shortens (pure a) := by
  intro input b rest h
  cases h
  exact Nat.le_refl _

theorem shortens_throw (err : RdbError) : Shortens (throw err : RdbReader α) := by
  intro input b rest h
  cases h

theorem shortens_lift (x : Except RdbError α) : Shortens (liftM x : RdbReader α) := by
  intro input b rest h
  cases x with
  | error err => cases h
  | ok a =>
    cases h
    exact Nat.le_refl _

variable {x : RdbReader α}

theorem Shortens.bind {f : α → RdbReader β} (hx : Shortens x)
    (hf : ∀ a, Shortens (f a)) : Shortens (x >>= f) := by
  intro input b rest h
  obtain ⟨⟨a, middle⟩, hfirst, hrest⟩ := bind_ok h
  exact (hf a middle b rest hrest).trans (hx input a middle hfirst)

theorem Shortens.ite {p : Prop} [Decidable p] {y : RdbReader α} (hx : Shortens x)
    (hy : Shortens y) : Shortens (if p then x else y) := by
  split
  · exact hx
  · exact hy

theorem Shortens.within (hx : Shortens x) (context : RdbContext) :
    Shortens (Rdb.within context x) := by
  intro input a rest h
  exact hx input a rest (mapError_ok h)

theorem shortens_readByte : Shortens readByte := by
  intro input b rest h
  cases input with
  | nil => cases h
  | cons first input =>
    cases h
    exact Nat.le_succ _

theorem shortens_readFullBytes (count : Nat) : Shortens (readFullBytes count) := by
  intro input b rest h
  unfold readFullBytes at h
  split at h
  · cases h
    rw [length_drop]
    exact Nat.sub_le _ _
  · cases h

theorem shortens_readAll : Shortens readAll := by
  intro input b rest h
  cases h
  exact Nat.zero_le _

theorem shortens_readUintLE (width : Nat) : Shortens (readUintLE width) :=
  (shortens_readFullBytes width).bind fun _ => shortens_pure _

theorem shortens_readLength : Shortens readLength := by
  refine shortens_readByte.bind fun first => ?_
  split
  · exact shortens_pure _
  · exact shortens_readByte.bind fun _ => shortens_pure _
  · exact (shortens_readFullBytes 4).bind fun _ => shortens_pure _
  · exact shortens_pure _

theorem shortens_readBytes (length : Nat) : Shortens (readBytes length) :=
  (shortens_pure _).ite ((shortens_throw _).ite (shortens_readFullBytes length))

theorem shortens_readPlainLength (context : RdbContext) (err : RdbError) :
    Shortens (readPlainLength context err) :=
  (shortens_readLength.within context).bind fun _ =>
    (shortens_throw err).ite (shortens_pure _)

theorem shortens_readLZFString : Shortens readLZFString :=
  (shortens_readPlainLength _ _).bind fun _ => (shortens_readPlainLength _ _).bind fun _ =>
    (shortens_throw _).ite (((shortens_readBytes _).within _).bind fun _ => shortens_lift _)

theorem shortens_readIntegerString (width : Nat) : Shortens (readIntegerString width) :=
  (shortens_readUintLE width).bind fun _ => shortens_pure _

theorem shortens_readString : Shortens readString := by
  refine shortens_readLength.bind fun p => (shortens_readBytes p.1).ite ?_
  split
  · exact shortens_readIntegerString 1
  · exact shortens_readIntegerString 2
  · exact shortens_readIntegerString 4
  · exact shortens_readLZFString
  · exact shortens_throw _

theorem shortens_readEntry (valueType : UInt8) (expiresAt : Int) :
    Shortens (readEntry valueType expiresAt) :=
  (shortens_throw _).ite ((shortens_readString.within _).bind fun _ =>
    (shortens_readString.within _).bind fun _ => shortens_pure _)

theorem shortens_readExpiringEntry (opcodeName : String) (expiresAt : Int) :
    Shortens (readExpiringEntry opcodeName expiresAt) :=
  (shortens_readByte.within _).bind fun valueType => shortens_readEntry valueType expiresAt

theorem shortens_validatedExpiryMillis (n : Nat) : Shortens (validatedExpiryMillis n) :=
  (shortens_throw _).ite (shortens_pure _)

theorem shortens_processMarker (marker : UInt8) : Shortens (processMarker marker) := by
  have hstring := shortens_readString
  have hlength := shortens_readLength
  refine Shortens.ite ?_ (Shortens.ite ?_ (Shortens.ite ?_ (Shortens.ite ?_ (Shortens.ite ?_
    (Shortens.ite ?_ ?_)))))
  · exact (hstring.within _).bind fun _ => (hstring.within _).bind fun _ => shortens_pure _
  · exact (hlength.within _).bind fun _ => (hlength.within _).bind fun _ => shortens_pure _
  · exact (hlength.within _).bind fun _ => (shortens_throw _).ite (shortens_pure _)
  · exact ((shortens_readUintLE 4).within _).bind fun _ => shortens_readExpiringEntry _ _
  · exact ((shortens_readUintLE 8).within _).bind fun n =>
      (shortens_validatedExpiryMillis n).bind fun _ => shortens_readExpiringEntry _ _
  · exact shortens_readAll.bind fun _ => (shortens_throw _).ite (shortens_pure _)
  · exact (shortens_readEntry marker 0).ite (shortens_throw _)

/-- **An item takes at least one byte.** -/
theorem readItem_rest_lt {input rest : Bytes} {item : RdbItem}
    (h : readItem input = .ok (item, rest)) : rest.length < input.length := by
  obtain ⟨⟨marker, middle⟩, hmarker, hrest⟩ := bind_ok h
  have hle := shortens_processMarker marker middle item rest hrest
  have hbyte := mapError_ok hmarker
  cases input with
  | nil => cases hbyte
  | cons first input =>
    cases hbyte
    exact Nat.lt_succ_of_le hle

end Progress

/-! ## The load loop -/

section Load

variable {σ : Type} (store : σ → StringSnapshotEntry → Except RdbError σ)

/-- The loop of `load`; every key is handed to the callback. -/
def loadItems (state : σ) (input : Bytes) : Except RdbError σ :=
  match _h : readItem input with
  | .error err => .error err
  | .ok (.endOfFile, _) => .ok state
  | .ok (.skipped, rest) => loadItems state rest
  | .ok (.entry e, rest) =>
    match store state e with
    | .error err => .error err
    | .ok state' => loadItems state' rest
termination_by input.length
decreasing_by all_goals exact readItem_rest_lt _h

/-- `load`. -/
def load (state : σ) (payload : Bytes) : Except RdbError σ :=
  match (do
    let header ← within .header (readFullBytes fileHeader.length)
    validateHeader header : RdbReader Unit) payload with
  | .error err => .error err
  | .ok (_, rest) => loadItems store state rest

end Load

/-- The store that is loaded, with `Stats`. -/
structure Loaded where
  store : Store
  loadedKeys : Nat
  skippedExpiredKeys : Nat

/-- The end of `readEntry`: a key past its deadline is skipped, any other one is stored.  Every key
has its own readings of the clock. -/
def loadEntry (envs : Nat → Env) (l : Loaded) (entry : StringSnapshotEntry) :
    Except RdbError Loaded :=
  let env := envs (l.loadedKeys + l.skippedExpiredKeys)
  if 0 < entry.expiresAt ∧ entry.expiresAt ≤ env.now 0 then
    .ok { l with skippedExpiredKeys := l.skippedExpiredKeys + 1 }
  else
    match l.store.set entry.key entry.value entry.expiresAt (env.after 1) with
    | (store, .ok _) => .ok { l with store, loadedKeys := l.loadedKeys + 1 }
    | (_, .error err) => .error (.storeKey entry.key err)

/-- `LoadReader`. -/
def loadReader (envs : Nat → Env) (payload : Bytes) (store : Store) : Except RdbError Loaded :=
  load (loadEntry envs) ⟨store, 0, 0⟩ payload

/-! ## Reading back what was written -/

theorem bind_of_ok {α β : Type} {x : RdbReader α} {f : α → RdbReader β} {a : α}
    (h : x input = .ok (a, rest)) : (x >>= f) input = f a rest := by
  change (x input >>= fun p => f p.1 p.2) = _
  rw [h]
  rfl

theorem within_of_ok {α : Type} {context : RdbContext} {x : RdbReader α} {a : α}
    (h : x input = .ok (a, rest)) : within context x input = .ok (a, rest) := by
  rw [within, h]
  rfl

theorem readFullBytes_append (bytes rest : Bytes) :
    readFullBytes bytes.length (bytes ++ rest) = .ok (bytes, rest) := by
  rw [readFullBytes, if_pos (by rw [length_append]; exact Nat.le_add_right _ _),
    take_left, drop_left]

theorem bigEndian_foldl (bytes : Bytes) (n : Nat) :
    bytes.foldl (fun n b => n * 256 + b.toNat) n = n * 256 ^ bytes.length + bigEndian bytes := by
  induction bytes generalizing n with
  | nil => simp [bigEndian]
  | cons b bytes ih =>
    rw [bigEndian, foldl_cons, foldl_cons, ih, ih, length_cons, Nat.pow_succ]
    ring

theorem bigEndian_cons (b : UInt8) (bytes : Bytes) :
    bigEndian (b :: bytes) = b.toNat * 256 ^ bytes.length + bigEndian bytes := by
  rw [bigEndian, foldl_cons, bigEndian_foldl, Nat.zero_mul, Nat.zero_add]

theorem littleEndian_succ (width n : Nat) :
    littleEndian (width + 1) n = littleEndian width n ++ [UInt8.ofNat (n / 256 ^ width)] := by
  simp [littleEndian, range_succ]

/-- The bytes of a number keep its low part. -/
theorem bigEndian_littleEndian (width n : Nat) :
    bigEndian (littleEndian width n).reverse = n % 256 ^ width := by
  induction width with
  | zero => simp [littleEndian, bigEndian, Nat.mod_one]
  | succ width ih =>
    have hbyte : (UInt8.ofNat (n / 256 ^ width)).toNat = n / 256 ^ width % 256 := by
      rw [UInt8.toNat_ofNat']
    rw [littleEndian_succ, reverse_append, reverse_singleton, singleton_append,
      bigEndian_cons, ih, length_reverse, length_littleEndian, hbyte, Nat.mod_pow_succ]
    ring

theorem readUintLE_littleEndian {width n : Nat} (h : n < 256 ^ width) (rest : Bytes) :
    readUintLE width (littleEndian width n ++ rest) = .ok (n, rest) := by
  have hread := readFullBytes_append (littleEndian width n) rest
  rw [length_littleEndian] at hread
  rw [readUintLE, bind_of_ok hread, fromLittleEndian, bigEndian_littleEndian, Nat.mod_eq_of_lt h]
  rfl

theorem readLength_encodeLength {length : Nat} (h : length < 2 ^ 32) (rest : Bytes) :
    readLength (encodeLength length ++ rest) = .ok ((length, false), rest) := by
  unfold encodeLength
  split
  · rename_i hsmall
    have hbyte : (UInt8.ofNat length).toNat = length := by
      rw [UInt8.toNat_ofNat']
      omega
    have hread : readByte ([UInt8.ofNat length] ++ rest) = .ok (UInt8.ofNat length, rest) := rfl
    rw [readLength, bind_of_ok hread, hbyte, show length / 64 = 0 by omega,
      show length % 64 = length by omega]
    rfl
  split
  · rename_i hsmall hmiddle
    have hfirst : (UInt8.ofNat (length / 256 + 64)).toNat = length / 256 + 64 := by
      rw [UInt8.toNat_ofNat']
      omega
    have hsecond : (UInt8.ofNat length).toNat = length % 256 := by
      rw [UInt8.toNat_ofNat']
    have hread : readByte ([UInt8.ofNat (length / 256 + 64), UInt8.ofNat length] ++ rest) =
        .ok (UInt8.ofNat (length / 256 + 64), UInt8.ofNat length :: rest) := rfl
    have hread' : readByte (UInt8.ofNat length :: rest) = .ok (UInt8.ofNat length, rest) := rfl
    rw [readLength, bind_of_ok hread, hfirst, show (length / 256 + 64) / 64 = 1 by omega]
    simp only
    rw [bind_of_ok hread', hsecond, show (length / 256 + 64) % 64 * 256 + length % 256 = length by omega]
    rfl
  · have hread : readByte (0x80 :: (littleEndian 4 length).reverse ++ rest) =
        .ok (0x80, (littleEndian 4 length).reverse ++ rest) := rfl
    have hfull := readFullBytes_append (littleEndian 4 length).reverse rest
    rw [length_reverse, length_littleEndian] at hfull
    rw [readLength, bind_of_ok hread, show (0x80 : UInt8).toNat / 64 = 2 from rfl]
    simp only
    rw [bind_of_ok hfull, bigEndian_littleEndian, Nat.mod_eq_of_lt (by simpa using h)]
    rfl

theorem readString_encodeString {value : Bytes} (h : value.length ≤ maxRDBObjectLength)
    (rest : Bytes) : readString (encodeString value ++ rest) = .ok (value, rest) := by
  have hmax : maxRDBObjectLength = 536870912 := rfl
  have hlength := @readLength_encodeLength value.length (by omega) (value ++ rest)
  rw [readString, encodeString, append_assoc, bind_of_ok hlength]
  simp only [Bool.not_false, if_true]
  rw [readBytes]
  split
  · rename_i hnil
    rw [eq_nil_of_length_eq_zero hnil]
    rfl
  · rw [if_neg (by omega)]
    exact readFullBytes_append value rest

/-- The loader can hold the key and the value, and the deadline. -/
structure Fits (e : StringSnapshotEntry) : Prop where
  key : e.key.length ≤ maxRDBObjectLength
  value : e.value.length ≤ maxRDBObjectLength
  deadline : 0 ≤ e.expiresAt ∧ e.expiresAt < 2 ^ 63

theorem readEntry_encode (h : Fits e) (rest : Bytes) :
    readEntry valueTypeString e.expiresAt (encodeString e.key ++ encodeString e.value ++ rest) =
      .ok (.entry e, rest) := by
  have hkey := readString_encodeString h.key (encodeString e.value ++ rest)
  have hvalue := readString_encodeString h.value rest
  rw [readEntry, if_neg (by simp), append_assoc, bind_of_ok (within_of_ok hkey),
    bind_of_ok (within_of_ok hvalue)]
  rfl

/-- The key was past its deadline when the snapshot was built. -/
def Dropped (now : Int) (e : StringSnapshotEntry) : Prop :=
  0 < e.expiresAt ∧ e.expiresAt ≤ now

instance (now : Int) (e : StringSnapshotEntry) : Decidable (Dropped now e) :=
  inferInstanceAs (Decidable (_ ∧ _))

theorem encodeEntry_of_kept {now : Int} (h : ¬Dropped now e) :
    encodeEntry now e =
      (if 0 < e.expiresAt then opcodeExpireTimeMS :: littleEndian 8 e.expiresAt.toNat else []) ++
        valueTypeString :: (encodeString e.key ++ encodeString e.value) :=
  if_neg h

/-- **One key is read back as it was written.** -/
theorem readItem_encodeEntry (h : Fits e) {now : Int} (hkept : ¬Dropped now e) (rest : Bytes) :
    readItem (encodeEntry now e ++ rest) = .ok (.entry e, rest) := by
  have hentry := readEntry_encode h rest
  rw [encodeEntry_of_kept hkept]
  split
  · rename_i hdeadline
    have hbyte : readByte (opcodeExpireTimeMS :: littleEndian 8 e.expiresAt.toNat ++
        valueTypeString :: (encodeString e.key ++ encodeString e.value) ++ rest) =
        .ok (opcodeExpireTimeMS, littleEndian 8 e.expiresAt.toNat ++
          (valueTypeString :: (encodeString e.key ++ encodeString e.value ++ rest))) := by
      simp [readByte]
    have hmillis := @readUintLE_littleEndian 8 e.expiresAt.toNat
      (by have := h.deadline.2; omega)
      (valueTypeString :: (encodeString e.key ++ encodeString e.value ++ rest))
    have hvalid : validatedExpiryMillis e.expiresAt.toNat = pure e.expiresAt := by
      have := h.deadline
      rw [validatedExpiryMillis, if_neg (by omega), Int.toNat_of_nonneg this.1]
    have htype : readByte (valueTypeString :: (encodeString e.key ++ encodeString e.value ++ rest)) =
        .ok (valueTypeString, encodeString e.key ++ encodeString e.value ++ rest) := rfl
    rw [readItem, bind_of_ok (within_of_ok hbyte)]
    change (within .expireTimeMS (readUintLE 8) >>= fun n => validatedExpiryMillis n >>=
      fun m => readExpiringEntry "EXPIRETIMEMS" m) _ = _
    rw [bind_of_ok (within_of_ok hmillis), hvalid, pure_bind, readExpiringEntry,
      bind_of_ok (within_of_ok htype)]
    exact hentry
  · rename_i hnone
    have hzero : e.expiresAt = 0 := by
      have := h.deadline.1
      omega
    rw [hzero] at hentry
    have hbyte : readByte ([] ++ valueTypeString :: (encodeString e.key ++ encodeString e.value) ++
        rest) = .ok (valueTypeString, encodeString e.key ++ encodeString e.value ++ rest) := rfl
    rw [readItem, bind_of_ok (within_of_ok hbyte)]
    exact hentry

section Load

variable {σ : Type} (store : σ → StringSnapshotEntry → Except RdbError σ)

variable {input rest : Bytes} {state : σ}

theorem loadItems_of_entry {e : StringSnapshotEntry} (h : readItem input = .ok (.entry e, rest)) :
    loadItems store state input = store state e >>= fun state' => loadItems store state' rest := by
  rw [loadItems]
  split
  · simp_all
  · simp_all
  · simp_all
  · rename_i hitem
    rw [h] at hitem
    cases hitem
    cases store state e <;> rfl

theorem loadItems_of_skipped (h : readItem input = .ok (.skipped, rest)) :
    loadItems store state input = loadItems store state rest := by
  rw [loadItems]
  split
  · simp_all
  · simp_all
  · rename_i hitem
    rw [h] at hitem
    cases hitem
    rfl
  · simp_all

theorem loadItems_of_endOfFile
    (h : readItem input = .ok (.endOfFile, rest)) : loadItems store state input = .ok state := by
  rw [loadItems]
  split
  · simp_all
  · rfl
  · simp_all
  · simp_all

theorem loadItems_of_error {err : RdbError}
    (h : readItem input = .error err) : loadItems store state input = .error err := by
  rw [loadItems]
  split
  · rename_i herr
    rw [h] at herr
    cases herr
    rfl
  · simp_all
  · simp_all
  · simp_all

theorem loadItems_endOfFile (state : σ) :
    loadItems store state (opcodeEOF :: List.replicate 8 0) = .ok state :=
  loadItems_of_endOfFile store (show readItem _ = .ok (.endOfFile, []) from rfl)

/-- The keys of a payload are handed to the callback in their order. -/
theorem loadItems_entries {entries : List StringSnapshotEntry} (h : ∀ e ∈ entries, Fits e)
    (now : Int) (state : σ) :
    loadItems store state (entries.flatMap (encodeEntry now) ++ opcodeEOF :: List.replicate 8 0) =
      (entries.filter fun e => ¬Dropped now e).foldlM store state := by
  induction entries generalizing state with
  | nil => exact loadItems_endOfFile store state
  | cons e entries ih =>
    have hrest := ih fun e' he' => h e' (mem_cons_of_mem _ he')
    rw [flatMap_cons, append_assoc]
    by_cases hdropped : Dropped now e
    · have hnone : encodeEntry now e = [] := if_pos hdropped
      rw [hnone, nil_append, hrest, filter_cons_of_neg (by simpa using hdropped)]
    · rw [loadItems_of_entry store (readItem_encodeEntry (h e mem_cons_self) hdropped _),
        filter_cons_of_pos (by simpa using hdropped), foldlM_cons]
      exact congrArg _ (funext hrest)

/-- **Loading a snapshot hands every key that was not dropped to the callback**, in the order of the
keys. -/
theorem load_buildSnapshot {entries : List StringSnapshotEntry} (h : ∀ e ∈ entries, Fits e)
    (now : Int) (state : σ) :
    load store state (buildSnapshot entries now) =
      ((sortBy StringSnapshotEntry.key entries).filter fun e => ¬Dropped now e).foldlM store
        state := by
  have hheader : ∀ rest, (within .header (readFullBytes fileHeader.length) >>= validateHeader)
      (fileHeader ++ rest) = .ok ((), rest) := fun rest => by
    rw [bind_of_ok (within_of_ok (readFullBytes_append fileHeader rest))]
    rfl
  unfold buildSnapshot
  split
  · rename_i hnil
    rw [hnil, load, emptySnapshot, hheader]
    exact loadItems_endOfFile store state
  · have hselect : ∀ rest, readItem (opcodeSelectDB :: encodeLength 0 ++ rest) =
        .ok (.skipped, rest) := fun rest => rfl
    rw [load, append_assoc, append_assoc, hheader]
    simp only
    rw [loadItems_of_skipped store (hselect _)]
    exact loadItems_entries store
      (fun e he => h e ((perm_sortBy _ _).mem_iff.mp he)) now state

variable {store}

/-- **What the callback keeps, a load keeps.** -/
theorem loadItems_keeps {P : σ → Prop}
    (hstore : ∀ {state e state'}, P state → store state e = .ok state' → P state') {state' : σ}
    (hstate : P state) (h : loadItems store state input = .ok state') : P state' := by
  induction state, input using loadItems.induct store with
  | case1 state input err hitem =>
    rw [loadItems_of_error store hitem] at h
    cases h
  | case2 state input rest hitem =>
    rw [loadItems_of_endOfFile store hitem] at h
    cases h
    exact hstate
  | case3 state input rest hitem ih =>
    rw [loadItems_of_skipped store hitem] at h
    exact ih hstate h
  | case4 state input e rest hitem err herr =>
    rw [loadItems_of_entry store hitem, herr] at h
    cases h
  | case5 state input e rest hitem next hnext ih =>
    rw [loadItems_of_entry store hitem, hnext] at h
    exact ih (hstore hstate hnext) h

theorem load_keeps {P : σ → Prop}
    (hstore : ∀ {state e state'}, P state → store state e = .ok state' → P state')
    {state' : σ} {payload : Bytes} (hstate : P state)
    (h : load store state payload = .ok state') : P state' := by
  unfold load at h
  split at h
  · cases h
  · exact loadItems_keeps hstore hstate h

end Load

/-! ## Loading into a store -/

theorem set_plain {s : Store} (hplain : s.maxMemoryEnabled = false) (key value : Bytes)
    (expiresAt : Int) (env : Env) :
    ∃ s' answer, s.set key value expiresAt env = (s', .ok answer) ∧
      s'.view = update s.view key (some ⟨.string value, expiresAt⟩) ∧
      s'.maxMemoryEnabled = false := by
  obtain ⟨hok, hview⟩ := (mutate_acts hplain key (.set value expiresAt) env).of_apply
    (show _ = Except.ok (some ⟨.string value, expiresAt⟩) from rfl)
  have hlimit := (s.mutate_spec key (.set value expiresAt) env).1
  simp only [mutate, write, wrote] at hok hview hlimit
  cases hset : s.set key value expiresAt env with
  | mk s' answer =>
    rw [hset] at hok hview hlimit
    cases answer with
    | error err => cases hok
    | ok answer =>
      exact ⟨s', answer, rfl, hview, (enabled_of_eq hlimit).trans hplain⟩

variable {envs : Nat → Env}

/-- One key is stored, unless its deadline has passed by the reading at its turn. -/
theorem loadEntry_spec (hplain : l.store.maxMemoryEnabled = false) (e : StringSnapshotEntry) :
    ∃ l', loadEntry envs l e = .ok l' ∧ l'.store.maxMemoryEnabled = false ∧
      l'.loadedKeys + l'.skippedExpiredKeys = l.loadedKeys + l.skippedExpiredKeys + 1 ∧
      l'.store.view =
        if Dropped ((envs (l.loadedKeys + l.skippedExpiredKeys)).now 0) e then l.store.view
        else update l.store.view e.key (some ⟨.string e.value, e.expiresAt⟩) := by
  by_cases hdropped : Dropped ((envs (l.loadedKeys + l.skippedExpiredKeys)).now 0) e
  · rw [if_pos hdropped]
    refine ⟨{ l with skippedExpiredKeys := l.skippedExpiredKeys + 1 }, ?_, hplain, rfl, rfl⟩
    rw [loadEntry]
    exact if_pos hdropped
  · obtain ⟨s', answer, hset, hview, hlimit⟩ := set_plain hplain e.key e.value e.expiresAt
      ((envs (l.loadedKeys + l.skippedExpiredKeys)).after 1)
    rw [if_neg hdropped]
    refine ⟨⟨s', l.loadedKeys + 1, l.skippedExpiredKeys⟩, ?_, hlimit, Nat.succ_add _ _, hview⟩
    rw [Dropped] at hdropped
    rw [loadEntry, if_neg hdropped, hset]

theorem loadEntry_plain {l' : Loaded} (hplain : l.store.maxMemoryEnabled = false)
    (h : loadEntry envs l e = .ok l') : l'.store.maxMemoryEnabled = false := by
  obtain ⟨l'', hload, hplain', -, -⟩ := loadEntry_spec hplain e
  rw [hload] at h
  cases h
  exact hplain'

theorem loadReader_plain {payload : Bytes} {s : Store} (hplain : s.maxMemoryEnabled = false)
    (h : loadReader envs payload s = .ok l) : l.store.maxMemoryEnabled = false :=
  load_keeps (P := fun l : Loaded => l.store.maxMemoryEnabled = false)
    (fun hstate hstore => loadEntry_plain hstate hstore) hplain h

/-- **The keys are stored in their turn**, those past their deadlines by then apart, and nothing else
changes. -/
theorem foldlM_loadEntry {entries : List StringSnapshotEntry}
    (hnodup : (entries.map StringSnapshotEntry.key).Nodup) {l : Loaded}
    (hplain : l.store.maxMemoryEnabled = false) :
    ∃ l', entries.foldlM (loadEntry envs) l = .ok l' ∧ l'.store.maxMemoryEnabled = false ∧
      (∀ i e, entries[i]? = some e → l'.store.view e.key =
        if Dropped ((envs (l.loadedKeys + l.skippedExpiredKeys + i)).now 0) e then l.store.view e.key
        else some ⟨.string e.value, e.expiresAt⟩) ∧
      ∀ k, k ∉ entries.map StringSnapshotEntry.key → l'.store.view k = l.store.view k := by
  induction entries generalizing l with
  | nil => exact ⟨l, rfl, hplain, fun _ _ h => (by cases h), fun _ _ => rfl⟩
  | cons first entries ih =>
    obtain ⟨l₁, hfirst, hplain₁, hturn, hview₁⟩ := loadEntry_spec hplain first
    rw [map_cons, nodup_cons] at hnodup
    obtain ⟨l', hrest, hplain', hstored, hothers⟩ := ih hnodup.2 hplain₁
    have hview : ∀ k, k ≠ first.key → l₁.store.view k = l.store.view k := by
      intro k hk
      rw [hview₁]
      split
      · rfl
      · exact update_of_ne hk _ _
    refine ⟨l', ?_, hplain', fun i e he => ?_, fun k hk => ?_⟩
    · rw [foldlM_cons, hfirst]
      exact hrest
    · cases i with
      | zero =>
        cases he
        rw [hothers _ hnodup.1, hview₁, Nat.add_zero]
        split
        · rfl
        · exact update_self _ _ _
      | succ i =>
        rw [List.getElem?_cons_succ] at he
        have hne : e.key ≠ first.key := by
          intro heq
          exact hnodup.1 (heq ▸ mem_map_of_mem (mem_of_getElem? he))
        have hindex : l₁.loadedKeys + l₁.skippedExpiredKeys + i =
            l.loadedKeys + l.skippedExpiredKeys + (i + 1) := by omega
        rw [hstored i e he, hindex, hview e.key hne]
    · rw [map_cons, mem_cons, not_or] at hk
      rw [hothers k hk.2, hview k hk.1]

theorem foldlM_loadEntry_kept {entries : List StringSnapshotEntry}
    (hkept : ∀ e ∈ entries, ∀ i, ¬Dropped ((envs i).now 0) e)
    (hnodup : (entries.map StringSnapshotEntry.key).Nodup) {l : Loaded}
    (hplain : l.store.maxMemoryEnabled = false) :
    ∃ l', entries.foldlM (loadEntry envs) l = .ok l' ∧ l'.store.maxMemoryEnabled = false ∧
      (∀ e ∈ entries, l'.store.view e.key = some ⟨.string e.value, e.expiresAt⟩) ∧
      ∀ k, k ∉ entries.map StringSnapshotEntry.key → l'.store.view k = l.store.view k := by
  obtain ⟨l', hload, hplain', hstored, hothers⟩ := @foldlM_loadEntry envs entries hnodup l hplain
  refine ⟨l', hload, hplain', fun e he => ?_, hothers⟩
  obtain ⟨i, hi⟩ := List.getElem?_of_mem he
  rw [hstored i e hi, if_neg (hkept e he _)]

end Rdb

/-! ## The strings of a store -/

/-- Only strings, which the loader can hold, without deadlines. -/
def Keyspace.Transferable (ks : Keyspace) : Prop :=
  ∀ key e, ks key = some e → e.expiresAt = 0 ∧ key.length ≤ Rdb.maxRDBObjectLength ∧
    ∃ data, e.value = .string data ∧ data.length ≤ Rdb.maxRDBObjectLength

variable {s : Store}

theorem mem_snapshotStrings {env : Env} {e : StringSnapshotEntry}
    (h : e ∈ s.snapshotStrings env) : s.view e.key = some ⟨.string e.value, e.expiresAt⟩ := by
  obtain ⟨⟨key, value⟩, hmem, hentry⟩ := mem_filterMap.mp h
  have hlookup := mem_allEntries.mp (mem_filter.mp hmem).1
  simp only at hentry
  split at hentry
  · rename_i data hpayload
    cases hentry
    simp only [view, hlookup, Option.map_some, ValueObject.entry, hpayload]
    rfl
  · cases hentry

/-- Every key of a keyspace that can be transferred is in the snapshot. -/
theorem exists_mem_snapshotStrings (hks : s.view.Transferable) (env : Env) {key : Bytes}
    {entry : Entry} (h : s.view key = some entry) : ∃ e ∈ s.snapshotStrings env, e.key = key := by
  obtain ⟨value, hlookup, rfl⟩ := Option.map_eq_some_iff.mp h
  obtain ⟨hdead, -, data, hdata, -⟩ := hks key _ h
  have hlive : (key, value) ∈ s.liveEntries (env.now 0) (env.order 0) := by
    refine mem_filter.mpr ⟨mem_allEntries.mpr hlookup, ?_⟩
    have hzero : value.expiresAt = 0 := hdead
    rw [hzero, isExpired_zero]
    rfl
  cases hpayload : value.payload with
  | string data =>
    exact ⟨⟨key, data, value.expiresAt⟩,
      mem_filterMap.mpr ⟨(key, value), hlive, by simp only [hpayload]⟩, rfl⟩
  | list | zset | stream | hash | set =>
    rw [ValueObject.entry, hpayload] at hdata
    cases hdata

/-- **A full resynchronisation transfers the strings**: loading the snapshot of a store that holds
only strings gives its keyspace. -/
theorem loadReader_snapshotStrings (hks : s.view.Transferable) (env : Env) (now : Int)
    (envs : Nat → Env) (hash : Bytes → Fin 256) :
    ∃ l, Rdb.loadReader envs (Rdb.buildSnapshot (s.snapshotStrings env) now) (.newStore hash) =
        .ok l ∧ l.store.maxMemoryEnabled = false ∧ l.store.view = s.view := by
  have hgood : ∀ e ∈ s.snapshotStrings env, e.expiresAt = 0 ∧ Rdb.Fits e := fun e he => by
    obtain ⟨hdead, hkey, data, hdata, hlength⟩ := hks e.key _ (mem_snapshotStrings he)
    cases hdata
    have hdead : e.expiresAt = 0 := hdead
    exact ⟨hdead, hkey, hlength, by rw [hdead]; decide⟩
  have hkept : ∀ e ∈ s.snapshotStrings env, ∀ t, ¬Rdb.Dropped t e := fun e he t hdropped => by
    have hpos := hdropped.1
    rw [(hgood e he).1] at hpos
    exact absurd hpos (by decide)
  have hperm := perm_sortBy StringSnapshotEntry.key (s.snapshotStrings env)
  have hall : (sortBy StringSnapshotEntry.key (s.snapshotStrings env)).filter
      (fun e => ¬Rdb.Dropped now e) = sortBy StringSnapshotEntry.key (s.snapshotStrings env) :=
    filter_eq_self.mpr fun e he => decide_eq_true (hkept e (hperm.mem_iff.mp he) now)
  obtain ⟨l, hload, hplain, hstored, hothers⟩ := @Rdb.foldlM_loadEntry_kept envs _
    (fun e he i => hkept e (hperm.mem_iff.mp he) _)
    ((hperm.map _).nodup_iff.mpr (nodup_snapshotStrings s env)) ⟨.newStore hash, 0, 0⟩ rfl
  refine ⟨l, ?_, hplain, funext fun key => ?_⟩
  · rw [Rdb.loadReader, Rdb.load_buildSnapshot _ (fun e he => (hgood e he).2), hall]
    exact hload
  · cases hview : s.view key with
    | some entry =>
      obtain ⟨e, he, rfl⟩ := exists_mem_snapshotStrings hks env hview
      rw [hstored e (hperm.mem_iff.mpr he), ← mem_snapshotStrings he, hview]
    | none =>
      refine hothers key fun hmem => ?_
      obtain ⟨e, he, rfl⟩ := mem_map.mp hmem
      rw [mem_snapshotStrings (hperm.mem_iff.mp he)] at hview
      cases hview

end Stash
