import Stash.ZSetValue

/-!
# The parts of the Go runtime that are left open

Upper-casing outside ASCII, and reading, printing and computing with floating-point numbers.
They are fixed functions; a `Runtime` names them.  What is assumed of them is said where it is
used.
-/

namespace Stash

open DecimalText List

/-- The functions of the Go runtime the program calls. -/
structure Runtime where
  /-- `strings.ToUpper` of a string that is not plain ASCII -/
  upperWide : Bytes → Bytes
  /-- `strings.ToLower` of a string that is not plain ASCII -/
  lowerWide : Bytes → Bytes
  /-- `strings.EqualFold` when one of the strings is not plain ASCII -/
  equalFoldWide : Bytes → Bytes → Bool
  /-- `strconv.ParseFloat`, giving the bits of the number -/
  parseFloat : Bytes → Option UInt64
  /-- `strconv.FormatFloat` in the shortest form -/
  formatFloat : UInt64 → Bytes
  /-- the two coordinates of the message about an invalid pair -/
  formatCoordinates : Score → Score → String
  /-- `float64(geohashEncode(longitude, latitude))` -/
  geoScore : Score → Score → Score
  /-- a converted integer is no infinity -/
  geoScore_finite : ∀ longitude latitude, (geoScore longitude latitude).Finite
  /-- the distance of two positions, in a unit, as GEODIST prints it -/
  geoDistance : Score → Score → Bytes → Bytes
  /-- whether GEORADIUS lists a member: centre, radius, unit and the member's score -/
  geoWithin : Score → Score → Score → Bytes → Score → Bool
  /-- `hyperLogLogEstimate` of merged registers -/
  hyperLogLogEstimate : Bytes → Int
  /-- the verb `%q` of a text in an error message -/
  quote : Bytes → Bytes

def isAscii (s : Bytes) : Bool :=
  s.all fun b => b < 128

def upperByte (b : UInt8) : UInt8 :=
  if 97 ≤ b ∧ b ≤ 122 then b - 32 else b

def lowerByte (b : UInt8) : UInt8 :=
  if 65 ≤ b ∧ b ≤ 90 then b + 32 else b

/-- `strings.ToUpper`. -/
def Runtime.toUpper (rt : Runtime) (s : Bytes) : Bytes :=
  if isAscii s then s.map upperByte else rt.upperWide s

/-- `strings.ToLower`. -/
def Runtime.toLower (rt : Runtime) (s : Bytes) : Bytes :=
  if isAscii s then s.map lowerByte else rt.lowerWide s

/-- `strings.EqualFold`. -/
def Runtime.equalFold (rt : Runtime) (s t : Bytes) : Bool :=
  if isAscii s && isAscii t then s.map lowerByte = t.map lowerByte else rt.equalFoldWide s t

/-- A digit of `hex.EncodeToString`. -/
def hexDigit (n : Nat) : UInt8 :=
  if n < 10 then (48 + n).toUInt8 else (87 + n).toUInt8

/-- `hex.EncodeToString`. -/
def hexText (raw : Bytes) : Bytes :=
  raw.flatMap fun b => [hexDigit (b.toNat / 16), hexDigit (b.toNat % 16)]

/-- `strconv.Quote`, one byte at a time: what is not printable ASCII is escaped. -/
def quoteByte (b : UInt8) : Bytes :=
  match b with
  | 7 => ascii "\\a" | 8 => ascii "\\b" | 9 => ascii "\\t" | 10 => ascii "\\n"
  | 11 => ascii "\\v" | 12 => ascii "\\f" | 13 => ascii "\\r"
  | _ =>
    if b = 34 ∨ b = 92 then [92, b]
    else if 32 ≤ b ∧ b < 127 then [b]
    else ascii "\\x" ++ hexText [b]

def quoteAscii (text : Bytes) : Bytes :=
  [34] ++ text.flatMap quoteByte ++ [34]

/-- Quoting emits no control character. -/
theorem quoteAscii_printable (text : Bytes) : ∀ b ∈ quoteAscii text, 32 ≤ b := by
  have hbyte : ∀ n : Fin 256, (quoteByte (UInt8.ofNat n)).all (32 ≤ ·) = true := by decide +kernel
  intro b hb
  simp only [quoteAscii, mem_append, mem_singleton, mem_flatMap] at hb
  rcases hb with (rfl | ⟨a, -, hb⟩) | rfl
  · decide
  · have ha := hbyte ⟨a.toNat, a.toNat_lt⟩
    rw [UInt8.ofNat_toNat] at ha
    exact of_decide_eq_true (all_eq_true.mp ha b hb)
  · decide

/-- A runtime that knows ASCII only and writes a number as the decimal text of its bits. -/
def Runtime.ofBits : Runtime where
  upperWide s := s
  lowerWide s := s
  equalFoldWide s t := s = t
  parseFloat raw := (readNat raw).bind fun n =>
    if n < 2 ^ 64 then some (UInt64.ofNat n) else none
  formatFloat bits := formatNat bits.toNat
  formatCoordinates _ _ := ""
  geoScore _ _ := ⟨0, by decide⟩
  geoScore_finite _ _ := by decide
  geoDistance _ _ _ := []
  geoWithin _ _ _ _ _ := false
  hyperLogLogEstimate _ := 0
  quote := quoteAscii

/-- ASCII without small letters is its own upper case. -/
theorem Runtime.toUpper_of_upper (rt : Runtime) {s : Bytes} (hascii : isAscii s = true)
    (hupper : s.map upperByte = s) : rt.toUpper s = s := by
  rw [toUpper, if_pos hascii, hupper]

end Stash
