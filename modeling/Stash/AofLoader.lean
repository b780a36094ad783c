import Stash.RespExtension

/-!
# Loading the append-only file

`aof.LoadFile` parses values off the file one after the other and hands each to a replay
callback.  It stops without an error at the end of the file, and also where the last frame is cut
off; every other parse error, and every error of the callback, ends the load with an error.

The callback is a state transformer with an error, so that the executor can be plugged in as well
as a callback that only records what it is given.
-/

namespace Stash

/-- **Reading a value takes at least one byte.** -/
theorem parse_rest_lt {input rest : Bytes} {value : Value}
    (h : parse input = .ok (value, rest)) : rest.length < input.length := by
  obtain ⟨item, rfl, hitem⟩ := (extends_parseValue maxNestingDepth).split h
  have hpos : 0 < item.length := by
    rw [List.length_pos_iff]
    rintro rfl
    rw [parseValue_nil] at hitem
    cases hitem
  rw [List.length_append]
  omega

/-! ## The load loop -/

/-- `LoadStats`. -/
structure LoadStats where
  replayedCommands : Nat
  truncatedTail : Bool
  deriving DecidableEq, Repr

/-- How a load fails: a parse error after some commands, or the replay of a command. -/
inductive LoadError (ε : Type) where
  | parse (after : Nat) (err : ParseError)
  | replay (command : Nat) (err : ε)
  deriving Repr

/-- What `LoadFile` returns, with the state the callbacks left behind. -/
structure LoadResult (σ ε : Type) where
  state : σ
  stats : LoadStats
  err : Option (LoadError ε)

section LoadFile

variable {σ ε : Type} (replay : σ → Value → σ × Option ε)

/-- The loop of `LoadFile` on the bytes that are left. -/
def loadLoop (stats : LoadStats) (state : σ) (input : Bytes) : LoadResult σ ε :=
  match _h : parse input with
  | .error err =>
    if ParseError.is .eof err then ⟨state, stats, none⟩
    else if isRecoverableTruncation err then ⟨state, { stats with truncatedTail := true }, none⟩
    else ⟨state, stats, some (.parse stats.replayedCommands err)⟩
  | .ok (value, rest) =>
    match replay state value with
    | (state', some err) => ⟨state', stats, some (.replay (stats.replayedCommands + 1) err)⟩
    | (state', none) =>
      loadLoop { stats with replayedCommands := stats.replayedCommands + 1 } state' rest
termination_by input.length
decreasing_by exact parse_rest_lt _h

/-- `aof.LoadFile` on the content of the file. -/
def loadFile (state : σ) (file : Bytes) : LoadResult σ ε :=
  loadLoop replay ⟨0, false⟩ state file

variable {input : Bytes}

theorem loadLoop_of_ok {stats : LoadStats} {state : σ} {rest : Bytes} {value : Value}
    (h : parse input = .ok (value, rest)) :
    loadLoop replay stats state input =
      match replay state value with
      | (state', some err) => ⟨state', stats, some (.replay (stats.replayedCommands + 1) err)⟩
      | (state', none) =>
        loadLoop replay { stats with replayedCommands := stats.replayedCommands + 1 } state' rest := by
  rw [loadLoop]
  split
  · rename_i herr
    simp [h] at herr
  · rename_i hok
    simp only [h, Except.ok.injEq, Prod.mk.injEq] at hok
    obtain ⟨rfl, rfl⟩ := hok
    rfl

theorem loadLoop_of_error {stats : LoadStats} {state : σ} {err : ParseError}
    (h : parse input = .error err) :
    loadLoop replay stats state input =
      if ParseError.is .eof err then ⟨state, stats, none⟩
      else if isRecoverableTruncation err then ⟨state, { stats with truncatedTail := true }, none⟩
      else ⟨state, stats, some (.parse stats.replayedCommands err)⟩ := by
  rw [loadLoop]
  split
  · rename_i herr
    simp only [h, Except.error.injEq] at herr
    rw [herr]
  · rename_i hok
    simp [h] at hok

/-- A parse error leaves the state alone; the load succeeds just when it is a truncation. -/
theorem loadLoop_parse_error (stats : LoadStats) (state : σ) {err : ParseError}
    (h : parse input = .error err) :
    (loadLoop replay stats state input).state = state ∧
      ((loadLoop replay stats state input).err = none ↔ isRecoverableTruncation err = true) := by
  rw [loadLoop_of_error replay h]
  split
  · rename_i heof
    simp [isRecoverableTruncation, heof]
  · split
    · rename_i hrec
      simp [hrec]
    · rename_i hrec
      simp [hrec]

end LoadFile

/-- The callback that accepts every value and records it. -/
def recordValue (frames : List Value) (value : Value) : List Value × Option Empty :=
  (frames ++ [value], none)

end Stash
