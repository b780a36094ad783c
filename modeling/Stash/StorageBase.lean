import Stash.RespValue
import Stash.GoMap
import Mathlib.Order.Monotone.Basic

/-!
# What a storage operation depends on besides the store

A storage operation reads the clock and iterates over maps.  Both come from outside the program:
an `Env` fixes the readings an operation gets, one after the other, and the order of each of its
map iterations.  Readings never go back within an operation.
-/

namespace Stash

open GoMap

/-- The errors of the storage package. -/
inductive StorageError where
  | syntaxError
  | invalidExpireTime
  | invalidStreamID
  | streamIDTooSmall
  | valueNotInteger
  | wrongType
  | notHyperLogLog
  | memoryLimitExceeded
  deriving DecidableEq, Repr

/-- `Error` of the storage errors. -/
def StorageError.error : StorageError → String
  | .syntaxError => "syntax error"
  | .invalidExpireTime => "invalid expire time in 'SET' command"
  | .invalidStreamID => "invalid stream ID specified as stream command argument"
  | .streamIDTooSmall => "stream ID is equal or smaller than the target stream top item"
  | .valueNotInteger => "value is not an integer or out of range"
  | .wrongType => "operation against a key holding the wrong kind of value"
  | .notHyperLogLog => "key is not a valid HyperLogLog string value"
  | .memoryLimitExceeded => "command not allowed when used memory > 'maxmemory'"

/-- A reading of the clock: the nanoseconds since 1970, in the range `UnixNano` is defined for. -/
structure Instant where
  nanos : Nat
  bounded : nanos < 2 ^ 63

namespace Instant

/-- `UnixMilli`. -/
def millis (t : Instant) : Int :=
  t.nanos / 1000000

/-- The instant of a number of milliseconds. -/
def ofMillis (ms : Nat) (h : ms ≤ 9223372036854) : Instant :=
  ⟨ms * 1000000, by omega⟩

instance : LE Instant := ⟨fun s t => s.nanos ≤ t.nanos⟩

instance : Preorder Instant where
  le_refl t := Nat.le_refl t.nanos
  le_trans _ _ _ h h' := Nat.le_trans h h'

theorem millis_mono {s t : Instant} (h : s ≤ t) : s.millis ≤ t.millis := by
  have hnat : s.nanos / 1000000 ≤ t.nanos / 1000000 := Nat.div_le_div_right h
  unfold millis
  omega

theorem millis_nonneg (t : Instant) : 0 ≤ t.millis := by
  unfold millis
  omega

theorem millis_le (t : Instant) : t.millis ≤ 9223372036854 := by
  have := t.bounded
  unfold millis
  omega

theorem inInt64_millis (t : Instant) : DecimalText.InInt64 t.millis := by
  have hnonneg := t.millis_nonneg
  have hle := t.millis_le
  unfold DecimalText.InInt64
  omega

end Instant

/-- The surroundings of one operation. -/
structure Env where
  /-- the readings of the clock, in the order they are taken -/
  clock : Nat → Instant
  monotone : Monotone clock
  /-- the orders of the iterations over maps -/
  order : Nat → MapOrder Bytes

namespace Env

/-- The `i`-th reading in milliseconds. -/
def now (env : Env) (i : Nat) : Int :=
  (env.clock i).millis

/-- The surroundings after the first `k` readings and iterations. -/
def after (env : Env) (k : Nat) : Env where
  clock i := env.clock (k + i)
  monotone _ _ h := env.monotone (Nat.add_le_add_left h k)
  order i := env.order (k + i)

/-- A moment: every reading is the same. -/
def frozen (t : Instant) : Env where
  clock _ := t
  monotone _ _ _ := le_refl t
  order _ := MapOrder.id Bytes

/-- Every reading is taken by `t`. -/
def DoneBy (env : Env) (t : Int) : Prop :=
  ∀ i, env.now i ≤ t

/-- No reading is taken before `t`. -/
def StartsAt (env : Env) (t : Int) : Prop :=
  ∀ i, t ≤ env.now i

theorem now_mono (env : Env) {i j : Nat} (h : i ≤ j) : env.now i ≤ env.now j :=
  Instant.millis_mono (env.monotone h)

theorem DoneBy.after {env : Env} {t : Int} (h : env.DoneBy t) (k : Nat) : (env.after k).DoneBy t :=
  fun i => h (k + i)

end Env

end Stash
