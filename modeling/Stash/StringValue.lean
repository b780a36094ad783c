import Stash.StorageBase
import Stash.Runtime

/-!
# Strings as counters, bitmaps and HyperLogLogs

A string value is a sequence of bytes.  Three commands change it in place: INCR reads it as a
decimal number, SETBIT as a bitmap and PFADD as the registers of a HyperLogLog.  Each of them is
a function of the bytes alone.
-/

namespace Stash

open DecimalText

/-! ## Counters -/

/-- The number after the one a counter holds; the largest integer has none. -/
def incrementedValue (data : Bytes) : Except StorageError Int :=
  match readInt64 data with
  | some parsed => if parsed = 2 ^ 63 - 1 then .error .valueNotInteger else .ok (parsed + 1)
  | none => .error .valueNotInteger

/-! ## Bitmaps -/

def maxBitmapOffset : Int := 2 ^ 32 - 1

/-- `validateBitmapOffset`. -/
def validateBitmapOffset (offset : Int) : Except StorageError Unit :=
  if offset < 0 ∨ maxBitmapOffset < offset then .error .valueNotInteger else .ok ()

/-- `validateBitmapArguments`. -/
def validateBitmapArguments (offset bit : Int) : Except StorageError Unit := do
  validateBitmapOffset offset
  if bit ≠ 0 ∧ bit ≠ 1 then throw .valueNotInteger

/-- The bit of a byte that an offset addresses. -/
def bitMask (offset : Int) : UInt8 :=
  UInt8.ofNat (2 ^ (7 - (offset % 8).toNat))

/-- `bitAt`. -/
def bitAt (data : Bytes) (offset : Int) : Int :=
  match data[(offset / 8).toNat]? with
  | none => 0
  | some byte => if byte &&& bitMask offset = 0 then 0 else 1

/-- `setBitInByte`. -/
def setBitInByte (dst mask : UInt8) (bit : Int) : UInt8 :=
  if bit = 1 then dst ||| mask else dst &&& ~~~mask

/-- The payload with a bit set: it grows up to the byte of the offset. -/
def setBitPayload (data : Bytes) (offset bit : Int) : Bytes :=
  let byteIndex := (offset / 8).toNat
  let payload := data ++ List.replicate (byteIndex + 1 - data.length) 0
  payload.modify byteIndex fun byte => setBitInByte byte (bitMask offset) bit

/-- `bits.OnesCount8`. -/
def onesCount (byte : UInt8) : Nat :=
  ((List.range 8).filter fun i => byte.toNat.testBit i).length

/-- `normalizeBitmapRange`. -/
def normalizeBitmapRange (length : Nat) (range : Option (Int × Int)) : Option (Nat × Nat) :=
  match range with
  | none => some (0, length - 1)
  | some (start, stop) =>
    let from₀ := if start < 0 then length + start else start
    let to₀ := if stop < 0 then length + stop else stop
    let from₁ := max from₀ 0
    if to₀ < 0 ∨ (length : Int) ≤ from₁ ∨ to₀ < from₁ then none
    else some (from₁.toNat, (min to₀ (length - 1)).toNat)

/-- `countBits`. -/
def countBits (data : Bytes) (range : Option (Int × Int)) : Int :=
  if data = [] then 0
  else
    match normalizeBitmapRange data.length range with
    | none => 0
    | some (start, stop) => ((data.drop start).take (stop + 1 - start)).map onesCount |>.sum

/-! ## HyperLogLogs -/

def hllRegisterCount : Nat := 2 ^ 14
def hllHeaderSize : Nat := 16
def hllMaxRank : Nat := 51
def hllMagic : Bytes := ascii "RHLL"
def hllDenseEncoding : UInt8 := 1

/-- `newHyperLogLogPayload`. -/
def newHyperLogLogPayload : Bytes :=
  hllMagic ++ hllDenseEncoding :: List.replicate 11 0 ++ List.replicate hllRegisterCount 0

/-- `fnv.New64a`. -/
def fnv64a (data : Bytes) : UInt64 :=
  data.foldl (fun hash byte => (hash ^^^ byte.toUInt64) * 0x100000001b3) 0xcbf29ce484222325

/-- `mix64`. -/
def mix64 (sum : UInt64) : UInt64 :=
  let sum := (sum ^^^ (sum >>> 33)) * 0xff51afd7ed558ccd
  let sum := (sum ^^^ (sum >>> 33)) * 0xc4ceb9fe1a85ec53
  sum ^^^ (sum >>> 33)

/-- `bits.LeadingZeros64`. -/
def leadingZeros64 (value : UInt64) : Nat :=
  if value = 0 then 64 else 63 - value.toNat.log2

/-- `hyperLogLogPosition`. -/
def hyperLogLogPosition (element : Bytes) : Nat × UInt8 :=
  let sum := mix64 (fnv64a element)
  ((sum >>> 50).toNat, UInt8.ofNat (min (leadingZeros64 (sum <<< 14) + 1) hllMaxRank))

/-- `hyperLogLogRegisters`. -/
def hyperLogLogRegisters (data : Bytes) : Except StorageError Bytes :=
  if data.length ≠ hllHeaderSize + hllRegisterCount ∨ data.take 4 ≠ hllMagic ∨
      data[4]? ≠ some hllDenseEncoding then .error .notHyperLogLog
  else if (data.drop hllHeaderSize).any fun rank => rank.toNat > hllMaxRank then
    .error .notHyperLogLog
  else .ok (data.drop hllHeaderSize)

/-- `updateHyperLogLogRegisters`: the registers and whether one has grown. -/
def updateHyperLogLogRegisters (registers : Bytes) (elements : List Bytes) : Bytes × Bool :=
  elements.foldl
    (fun acc element =>
      let position := hyperLogLogPosition element
      match acc.1[position.1]? with
      | some current =>
        if current < position.2 then (acc.1.set position.1 position.2, true) else acc
      | none => acc)
    (registers, false)

/-- The value of a new key that PFADD creates. -/
def pfAddNew (elements : List Bytes) : Bytes :=
  newHyperLogLogPayload.take hllHeaderSize ++
    (updateHyperLogLogRegisters (newHyperLogLogPayload.drop hllHeaderSize) elements).1

/-- The value after PFADD, with the registers updated where they lie. -/
def pfAddExisting (data : Bytes) (elements : List Bytes) : Except StorageError (Bytes × Bool) := do
  let registers ← hyperLogLogRegisters data
  let (updated, changed) := updateHyperLogLogRegisters registers elements
  return (data.take hllHeaderSize ++ updated, changed)

/-! ## Expiry arguments -/

/-- The clock reading `now.Add(d).UnixMilli()`, for a duration in nanoseconds. -/
def addMillis (now : Instant) (duration : Int) : Int :=
  (now.nanos + duration) / 1000000

/-- `ParseExpiryMillis`: the product with the unit is that of 64-bit durations. -/
def parseExpiryMillis (rt : Runtime) (args : List Bytes) (now : Instant) :
    Except StorageError Int :=
  match args with
  | [] => .ok 0
  | [unit, raw] =>
    match readInt64 raw with
    | none => .error .invalidExpireTime
    | some value =>
      if value ≤ 0 then .error .invalidExpireTime
      else if rt.toUpper unit = ascii "EX" then .ok (addMillis now (wrap64 (value * 1000000000)))
      else if rt.toUpper unit = ascii "PX" then .ok (addMillis now (wrap64 (value * 1000000)))
      else if rt.toUpper unit = ascii "PXAT" then .ok value
      else .error .syntaxError
  | _ => .error .syntaxError

/-- An absolute deadline is read as it stands, at any time. -/
theorem parseExpiryMillis_pxat (rt : Runtime) {deadline : Int} (hpos : 0 < deadline)
    (hrange : InInt64 deadline) (now : Instant) :
    parseExpiryMillis rt [ascii "PXAT", formatInt deadline] now = .ok deadline := by
  have hupper : rt.toUpper (ascii "PXAT") = ascii "PXAT" :=
    rt.toUpper_of_upper (by decide) (by decide)
  simp only [parseExpiryMillis, readInt64_formatInt hrange, hupper]
  rw [if_neg (by omega), if_neg (by decide), if_neg (by decide), if_pos trivial]

/-- A relative deadline that does not overflow is the reading plus the time to live. -/
theorem addMillis_millis (now : Instant) (ttl : Int) :
    addMillis now (ttl * 1000000) = now.millis + ttl := by
  unfold addMillis Instant.millis
  omega

end Stash
