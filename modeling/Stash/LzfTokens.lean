import Stash.RdbLoader

/-!
# LZF

A compressed string is a sequence of tokens: literal runs and back-references into what has been
written so far.  The decoder accepts exactly the encodings of token sequences that fill the output, and
returns what the tokens denote.
-/

namespace Stash.Rdb

open List

/-- A token: bytes to write, or bytes to repeat from a distance before the end. -/
inductive LzfToken where
  | literal (bytes : Bytes)
  | back (length distance : Nat)

namespace LzfToken

/-- The token may stand where so many bytes have been written. -/
def Valid (written : Nat) : LzfToken → Prop
  | literal bytes => 1 ≤ bytes.length ∧ bytes.length ≤ 32
  | back length distance =>
    3 ≤ length ∧ length ≤ 264 ∧ 1 ≤ distance ∧ distance ≤ 8192 ∧ distance ≤ written

/-- Repeat byte by byte, so that a copy may reach into itself. -/
def repeatBack (output : Bytes) (distance : Nat) : Nat → Bytes
  | 0 => output
  | length + 1 =>
    repeatBack (output ++ (output[output.length - distance]?).toList) distance length

/-- The output after the token. -/
def write (output : Bytes) : LzfToken → Bytes
  | literal bytes => output ++ bytes
  | back length distance => repeatBack output distance length

/-- A control byte packs the length with the high bits of the distance; from nine bytes on, another
byte extends the length. -/
def encode : LzfToken → Bytes
  | literal bytes => (bytes.length - 1).toUInt8 :: bytes
  | back length distance =>
    if length < 9 then
      [((length - 2) * 32 + (distance - 1) / 256).toUInt8, ((distance - 1) % 256).toUInt8]
    else
      [(7 * 32 + (distance - 1) / 256).toUInt8, (length - 9).toUInt8, ((distance - 1) % 256).toUInt8]

end LzfToken

variable {output output' rest rest' : Bytes} {reference distance n : Nat}

end Stash.Rdb
