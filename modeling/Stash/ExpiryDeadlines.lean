import Stash.StringValue

/-!
# Deadlines

The argument of an expiry option is scaled to nanoseconds in 64-bit arithmetic before it is added to
the clock.  The deadline is the one that was asked for exactly as long as the product has 64 bits; the
next larger argument gives a deadline in the past.
-/

namespace Stash

open DecimalText

/-- The deadline that is asked for, over the integers; there is none for an unknown option. -/
def askedDeadline (rt : Runtime) (unit : Bytes) (value : Int) (now : Instant) : Option Int :=
  if rt.toUpper unit = ascii "EX" then some (now.millis + 1000 * value)
  else if rt.toUpper unit = ascii "PX" then some (now.millis + value)
  else if rt.toUpper unit = ascii "PXAT" then some value
  else none

/-- The expiry is refused, or its deadline is exactly the one that is asked for. -/
def ExactOrRefused (rt : Runtime) (unit raw : Bytes) (value : Int) (now : Instant) : Prop :=
  ∀ deadline, parseExpiryMillis rt [unit, raw] now = .ok deadline →
    askedDeadline rt unit value now = some deadline

/-- The nanoseconds of the argument have 64 bits. -/
def FitsDuration (rt : Runtime) (unit : Bytes) (value : Int) : Prop :=
  (rt.toUpper unit = ascii "EX" → value ≤ 9223372036) ∧
    (rt.toUpper unit = ascii "PX" → value ≤ 9223372036854)

/-- A product that wraps around comes out smaller. -/
theorem wrap64_lt {z : Int} (h : 2 ^ 63 ≤ z) : wrap64 z + 2 ^ 64 ≤ z := by
  have hhigh := @Int.bmod_lt z (2 ^ 64) (by decide)
  have hdvd : ((2 ^ 64 : Nat) : Int) ∣ z - wrap64 z := Int.dvd_self_sub_bmod
  unfold wrap64 at *
  obtain ⟨k, hk⟩ := hdvd
  have hpos : 0 < k := by
    by_contra hle
    omega
  omega

/-- A relative deadline is exact as long as the product has 64 bits. -/
theorem addMillis_wrap64 (now : Instant) {value : Int} (hpos : 0 < value) :
    addMillis now (wrap64 (value * 1000000)) = now.millis + value ↔ value * 1000000 < 2 ^ 63 := by
  constructor
  · intro hexact
    by_contra hlarge
    have hwrapped := wrap64_lt (not_lt.mp hlarge)
    unfold addMillis Instant.millis at hexact
    omega
  · intro hsmall
    rw [wrap64_of_inInt64 ⟨by omega, hsmall⟩, addMillis_millis]

/-- **An expiry is exact or refused exactly when its nanoseconds have 64 bits.** -/
theorem expiry_exact_iff_fits (rt : Runtime) (unit raw : Bytes) (value : Int) (now : Instant)
    (hraw : readInt64 raw = some value) (hpos : 0 < value) :
    ExactOrRefused rt unit raw value now ↔ FitsDuration rt unit value := by
  have hread : parseExpiryMillis rt [unit, raw] now =
      if rt.toUpper unit = ascii "EX" then .ok (addMillis now (wrap64 (value * 1000000000)))
      else if rt.toUpper unit = ascii "PX" then .ok (addMillis now (wrap64 (value * 1000000)))
      else if rt.toUpper unit = ascii "PXAT" then .ok value
      else .error .syntaxError := by
    simp only [parseExpiryMillis, hraw]
    rw [if_neg (by omega)]
  unfold ExactOrRefused FitsDuration askedDeadline
  rw [hread]
  by_cases hex : rt.toUpper unit = ascii "EX"
  · -- seconds are a thousand times as many milliseconds
    have hiff := @addMillis_wrap64 now (1000 * value) (by omega)
    have hscale : 1000 * value * 1000000 = value * 1000000000 := by ring
    rw [hscale] at hiff
    rw [if_pos hex, if_pos hex]
    constructor
    · intro hexact
      have hsmall := hiff.mp (Option.some.inj (hexact _ rfl)).symm
      exact ⟨fun _ => by omega, fun hpx => absurd (hex.symm.trans hpx) (by decide)⟩
    · intro hfits deadline hdeadline
      have hsmall := hfits.1 hex
      rw [← Except.ok.inj hdeadline, hiff.mpr (by omega)]
  · rw [if_neg hex, if_neg hex]
    by_cases hpx : rt.toUpper unit = ascii "PX"
    · have hiff := addMillis_wrap64 now hpos
      rw [if_pos hpx, if_pos hpx]
      constructor
      · intro hexact
        have hsmall := hiff.mp (Option.some.inj (hexact _ rfl)).symm
        exact ⟨fun h => absurd h hex, fun _ => by omega⟩
      · intro hfits deadline hdeadline
        have hsmall := hfits.2 hpx
        rw [← Except.ok.inj hdeadline, hiff.mpr (by omega)]
    · rw [if_neg hpx, if_neg hpx]
      refine iff_of_true (fun deadline hdeadline => ?_)
        ⟨fun h => absurd h hex, fun h => absurd h hpx⟩
      split at hdeadline
      · rw [if_pos ‹_›, Except.ok.inj hdeadline]
      · cases hdeadline

theorem expiry_exact_iff_fits_px :
    readInt64 (ascii "9223372036854") = some 9223372036854 ∧
      ExactOrRefused .ofBits (ascii "px") (ascii "9223372036854") 9223372036854
        (.ofMillis 1700000000000 (by decide)) :=
  have hread : readInt64 (ascii "9223372036854") = some 9223372036854 := by decide +kernel
  ⟨hread, (expiry_exact_iff_fits .ofBits (ascii "px") (ascii "9223372036854") 9223372036854
    (.ofMillis 1700000000000 (by decide)) hread (by decide)).mpr
      ⟨fun h => absurd h (by decide +kernel), fun _ => by decide⟩⟩

/-- One millisecond more is accepted, and the deadline lies before 1970. -/
theorem px_overflows :
    readInt64 (ascii "9223372036855") = some 9223372036855 ∧
      parseExpiryMillis .ofBits [ascii "px", ascii "9223372036855"]
        (.ofMillis 1700000000000 (by decide)) = .ok (-7523372036855) ∧
      ¬ExactOrRefused .ofBits (ascii "px") (ascii "9223372036855") 9223372036855
        (.ofMillis 1700000000000 (by decide)) := by
  have hparse : parseExpiryMillis .ofBits [ascii "px", ascii "9223372036855"]
      (.ofMillis 1700000000000 (by decide)) = .ok (-7523372036855) := by decide +kernel
  refine ⟨by decide +kernel, hparse, fun hexact => ?_⟩
  exact absurd (hexact _ hparse) (by decide +kernel)

end Stash
