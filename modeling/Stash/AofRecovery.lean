import Stash.AofLoader
import Stash.AofWriter

/-!
# Recovery from a torn tail

A crash in the middle of a write leaves the file with some complete frames and the first bytes of
another.  At the next start `LoadFile` replays the complete frames and takes the rest for a
truncation; `OpenWriter` then opens the same file for appending and leaves the torn bytes where
they are, so that the next frame is written right behind them.

The second load of such a file is what this module is about.  As long as nothing was appended it
replays the complete frames.  As soon as something was appended, the torn bytes and the new frame
are parsed as one frame, and the appended frames are not read back; the only exception is a first
appended frame that begins with the torn bytes themselves, whose payload happens to continue
across the tear.
-/

namespace Stash

open DecimalText List Value

/-- The bytes of complete command frames. -/
def encodeCommands (commands : List (List Bytes)) : Bytes :=
  encodeValues (commands.map commandFrame)

@[simp] theorem encodeCommands_nil : encodeCommands [] = [] := by
  simp [encodeCommands, encodeValues]

@[simp] theorem encodeCommands_cons (tokens : List Bytes) (commands : List (List Bytes)) :
    encodeCommands (tokens :: commands) =
      (commandFrame tokens).encode ++ encodeCommands commands := by
  simp [encodeCommands, encodeValues]

/-- A torn write: a non-empty part of a frame that is not the whole frame. -/
structure Torn (tokens : List Bytes) (p : Bytes) : Prop where
  isPart : p <+: (commandFrame tokens).encode
  proper : p ≠ (commandFrame tokens).encode
  nonempty : p ≠ []

instance (tokens : List Bytes) (p : Bytes) : Decidable (Torn tokens p) :=
  decidable_of_iff (p <+: (commandFrame tokens).encode ∧ p ≠ (commandFrame tokens).encode ∧ p ≠ [])
    ⟨fun h => ⟨h.1, h.2.1, h.2.2⟩, fun h => ⟨h.1, h.2, h.3⟩⟩

/-- `initializePersistence` on a file that is not empty: the load, then the writer on the same
file.  A failed load ends the start. -/
def initializePersistence {σ ε : Type} (replay : σ → Value → σ × Option ε) (state : σ)
    (policy : Policy) (file : Bytes) : Except (LoadError ε) (σ × AofWriter) :=
  let loaded := loadFile replay state file
  match loaded.err with
  | some err => .error err
  | none => .ok (loaded.state, AofWriter.openWriter policy file)

/-- The durability frames of one command after the other are appended. -/
def appendCommands : AofWriter → List (List Bytes) → Except WriterError AofWriter
  | w, [] => .ok w
  | w, tokens :: commands =>
    match w.appendFrames [commandFrame tokens] with
    | .error err => .error err
    | .ok w' => appendCommands w' commands

/-- A load of the file replays exactly the commands, without an error. -/
def Replays (file : Bytes) (commands : List (List Bytes)) : Prop :=
  (loadFile recordValue [] file).err.isNone = true ∧
    (loadFile recordValue [] file).state = commands.map commandFrame

/-! ## Appending -/

theorem appendCommands_spec : ∀ {w : AofWriter} (commands : List (List Bytes)),
    w.closed = false → ∃ w', appendCommands w commands = .ok w' ∧
      w'.contents = w.contents ++ encodeCommands commands ∧ w'.closed = false
  | w, [], hclosed => ⟨w, rfl, by simp, hclosed⟩
  | w, tokens :: commands, hclosed => by
    obtain ⟨w₁, h₁⟩ := w.append_ok (encodeValues [commandFrame tokens])
      (w.policy = .always) hclosed
    obtain ⟨hcontents, -, -, -, hclosed₁, -⟩ := AofWriter.append_spec h₁
    obtain ⟨w₂, h₂, hcontents₂, hclosed₂⟩ :=
      appendCommands_spec commands (hclosed₁.trans hclosed)
    refine ⟨w₂, ?_, ?_, hclosed₂⟩
    · rw [appendCommands, AofWriter.appendFrames, h₁]
      exact h₂
    · rw [hcontents₂, hcontents]
      simp [encodeValues]

/-! ## Loading the complete frames -/

section Load

variable {σ ε : Type} (replay : σ → Value → σ × Option ε)

/-- A load that succeeds has read the complete frames at the front, and goes on behind them. -/
theorem loadLoop_commands {tail : Bytes} : ∀ (commands : List (List Bytes)) (stats : LoadStats)
    (state : σ), (loadLoop replay stats state (encodeCommands commands ++ tail)).err.isNone = true →
      (∀ tokens ∈ commands, WithinLimits tokens) ∧
        ∃ stats' state',
          (loadLoop replay stats' state' tail).err.isNone = true
  | [], stats, state, h => ⟨by simp, stats, state, by simpa using h⟩
  | tokens :: commands, stats, state, h => by
    rw [encodeCommands_cons, append_assoc] at h
    by_cases hlimits : WithinLimits tokens
    · rw [loadLoop_of_ok replay (parse_commandFrame _ hlimits)] at h
      split at h
      · simp at h
      · rename_i state' hreplay
        obtain ⟨hall, hrest⟩ := loadLoop_commands commands _ state' h
        refine ⟨?_, hrest⟩
        intro t ht
        rcases mem_cons.mp ht with rfl | ht
        · exact hlimits
        · exact hall t ht
    · obtain ⟨err, herr, hrec⟩ := parse_commandFrame_exceeds (encodeCommands commands ++ tail) hlimits
      have := (loadLoop_parse_error replay stats state herr).2
      simp [hrec] at this
      simp [this] at h

end Load

/-- The recording load reads complete frames one by one. -/
theorem loadLoop_recordValue (tail : Bytes) : ∀ (commands : List (List Bytes)) (stats : LoadStats)
    (frames : List Value), (∀ tokens ∈ commands, WithinLimits tokens) →
      ∃ stats', loadLoop recordValue stats frames (encodeCommands commands ++ tail) =
        loadLoop recordValue stats' (frames ++ commands.map commandFrame) tail
  | [], stats, frames, _ => ⟨stats, by simp⟩
  | tokens :: commands, stats, frames, h => by
    rw [encodeCommands_cons, append_assoc,
      loadLoop_of_ok _ (parse_commandFrame _ (h tokens mem_cons_self))]
    obtain ⟨stats', h'⟩ := loadLoop_recordValue tail commands _ (frames ++ [commandFrame tokens])
      fun t ht => h t (mem_cons_of_mem _ ht)
    exact ⟨stats', by simpa [recordValue] using h'⟩

/-- A recording load only adds to the record. -/
theorem loadLoop_recordValue_extends (stats : LoadStats) (frames : List Value) (input : Bytes) :
    ∃ more, (loadLoop recordValue stats frames input).state = frames ++ more := by
  induction h : input.length using Nat.strong_induction_on generalizing stats frames input with
  | _ n ih =>
    cases hparse : parse input with
    | error err => exact ⟨[], by simpa using (loadLoop_parse_error recordValue stats frames hparse).1⟩
    | ok result =>
      obtain ⟨value, rest⟩ := result
      rw [loadLoop_of_ok _ hparse]
      obtain ⟨more, hmore⟩ := ih rest.length (h ▸ parse_rest_lt hparse)
        { stats with replayedCommands := stats.replayedCommands + 1 } (frames ++ [value]) rest rfl
      exact ⟨value :: more, by simpa [recordValue] using hmore⟩

/-- A start that only records: complete frames within the limits, then a truncated one. -/
theorem initializePersistence_recordValue (policy : Policy) {commands : List (List Bytes)}
    {p : Bytes} (hlimits : ∀ tokens ∈ commands, WithinLimits tokens)
    (hcut : (match parse p with
      | .error err => isRecoverableTruncation err
      | .ok _ => false) = true) :
    initializePersistence recordValue [] policy (encodeCommands commands ++ p) =
      .ok (commands.map commandFrame, AofWriter.openWriter policy (encodeCommands commands ++ p)) := by
  cases hparse : parse p with
  | ok result => simp [hparse] at hcut
  | error err =>
    simp only [hparse] at hcut
    obtain ⟨stats', hload⟩ := loadLoop_recordValue p commands ⟨0, false⟩ [] hlimits
    have hend := loadLoop_parse_error recordValue stats' (commands.map commandFrame) hparse
    rw [initializePersistence, loadFile, hload, nil_append, hend.2.mpr hcut, hend.1]

/-- Appending to the reopened file and closing it leaves the old content with the new frames
behind it. -/
theorem appendCommands_openWriter (policy : Policy) (file : Bytes) (appended : List (List Bytes)) :
    ∃ w, appendCommands (AofWriter.openWriter policy file) appended = .ok w ∧
      w.close.file = file ++ encodeCommands appended := by
  obtain ⟨w, happend, hcontents, hopen⟩ :=
    appendCommands_spec (w := AofWriter.openWriter policy file) appended rfl
  exact ⟨w, happend, by rw [AofWriter.file_close hopen, hcontents, AofWriter.contents_openWriter]⟩

/-! ## The second load -/

section Recovery

variable {σ ε : Type} {replay : σ → Value → σ × Option ε} {state : σ} {policy : Policy}
  {commands : List (List Bytes)} {tokens : List Bytes} {p : Bytes}

/-- Torn bytes are no frame: a frame is read whatever follows it. -/
theorem Torn.parse_ne_ok (hp : Torn tokens p) (result : Value × Bytes) : parse p ≠ .ok result := by
  intro h
  obtain ⟨missing, hmissing⟩ := hp.isPart
  have hwhole := (extends_parseValue maxNestingDepth).ok h missing
  rw [hmissing] at hwhole
  by_cases hlimits : WithinLimits tokens
  · have hframe := parse_commandFrame [] hlimits
    rw [append_nil] at hframe
    have hrest : result.2 ++ missing = [] := congrArg Prod.snd (Except.ok.inj (hwhole.symm.trans hframe))
    exact hp.proper (by rw [← hmissing, (append_eq_nil_iff.mp hrest).2, append_nil])
  · obtain ⟨err, herr, -⟩ := parse_commandFrame_exceeds [] hlimits
    rw [append_nil] at herr
    cases hwhole.symm.trans herr

variable {started : σ × AofWriter}

/-- A start that succeeds has read the complete frames and taken the tail for a truncation. -/
theorem initializePersistence_torn (hp : Torn tokens p)
    (hstart : initializePersistence replay state policy (encodeCommands commands ++ p) = .ok started) :
    (∀ tokens ∈ commands, WithinLimits tokens) ∧
      (∃ err, parse p = .error err ∧ isRecoverableTruncation err = true) ∧
      started.2 = AofWriter.openWriter policy (encodeCommands commands ++ p) := by
  simp only [initializePersistence] at hstart
  split at hstart
  · simp at hstart
  · rename_i hnone
    simp only [Except.ok.injEq] at hstart
    obtain ⟨hlimits, stats', state', htail⟩ := loadLoop_commands replay commands ⟨0, false⟩ state
      (by rw [← loadFile, hnone]; rfl)
    refine ⟨hlimits, ?_, by rw [← hstart]⟩
    cases hparse : parse p with
    | ok result => exact absurd hparse (hp.parse_ne_ok result)
    | error err =>
      refine ⟨err, rfl, ?_⟩
      rw [← (loadLoop_parse_error replay stats' state' hparse).2]
      exact Option.isNone_iff_eq_none.mp htail

/-- Nothing is lost while nothing is appended. -/
theorem replays_torn (hp : Torn tokens p)
    (hstart : initializePersistence replay state policy (encodeCommands commands ++ p) = .ok started) :
    Replays (encodeCommands commands ++ p) commands := by
  obtain ⟨hlimits, ⟨err, hparse, hrec⟩, -⟩ := initializePersistence_torn hp hstart
  obtain ⟨stats', hload⟩ := loadLoop_recordValue p commands ⟨0, false⟩ [] hlimits
  have hend := loadLoop_parse_error recordValue stats' (commands.map commandFrame) hparse
  rw [Replays, loadFile, hload]
  exact ⟨by simpa using hend.2.mpr hrec, by simpa using hend.1⟩

/-- A frame appended behind the torn bytes is read back only if it begins with them. -/
theorem prefix_of_replays_torn (hp : Torn tokens p) {first : List Bytes}
    {appended : List (List Bytes)}
    (hstart : initializePersistence replay state policy (encodeCommands commands ++ p) = .ok started)
    (hreplays : Replays (encodeCommands commands ++ (p ++ encodeCommands (first :: appended)))
      (commands ++ first :: appended)) : p <+: (commandFrame first).encode := by
  obtain ⟨hlimits, -, -⟩ := initializePersistence_torn hp hstart
  obtain ⟨stats', hload⟩ := loadLoop_recordValue (p ++ encodeCommands (first :: appended))
    commands ⟨0, false⟩ [] hlimits
  have hstate := hreplays.2
  rw [loadFile, hload, nil_append] at hstate
  cases hparse : parse (p ++ encodeCommands (first :: appended)) with
  | error err =>
    rw [(loadLoop_parse_error recordValue stats' _ hparse).1] at hstate
    simp at hstate
  | ok result =>
    obtain ⟨value, rest⟩ := result
    rw [loadLoop_of_ok _ hparse] at hstate
    simp only [recordValue] at hstate
    obtain ⟨more, hmore⟩ := loadLoop_recordValue_extends
      { stats' with replayedCommands := stats'.replayedCommands + 1 }
      (commands.map commandFrame ++ [value]) rest
    rw [hmore] at hstate
    have hvalue : value = commandFrame first := by
      simp only [map_append, map_cons, append_assoc, cons_append,
        nil_append, append_cancel_left_eq, List.cons.injEq] at hstate
      exact hstate.1
    have hstar : ∃ rest, encodeCommands (first :: appended) = 42 :: rest := by
      simp [encode_commandFrame, appendPrefixedIntLine]
    obtain ⟨more, hmore⟩ := hstar
    rw [hmore, hvalue] at hparse
    exact parse_torn hp.isPart hparse

/-- **A torn tail poisons what is written behind it.**  After a start that succeeded on complete
frames and a torn one, and after more frames were appended, the file still replays exactly the
complete frames and the appended ones if nothing was appended; and if it does so at all, nothing
was appended or the first appended frame begins with the torn bytes. -/
theorem torn_tail_recovery (hp : Torn tokens p) (appended : List (List Bytes))
    {started : σ × AofWriter} {w : AofWriter}
    (hstart : initializePersistence replay state policy (encodeCommands commands ++ p) = .ok started)
    (happend : appendCommands started.2 appended = .ok w) :
    (appended = [] → Replays w.close.file (commands ++ appended)) ∧
      (Replays w.close.file (commands ++ appended) →
        appended = [] ∨ ∃ first rest, appended = first :: rest ∧
          p <+: (commandFrame first).encode) := by
  obtain ⟨-, -, hw⟩ := initializePersistence_torn hp hstart
  obtain ⟨w', happend', hfile⟩ := appendCommands_openWriter policy (encodeCommands commands ++ p)
    appended
  rw [← hw, happend, Except.ok.injEq] at happend'
  rw [happend', hfile, append_assoc]
  refine ⟨?_, ?_⟩
  · rintro rfl
    simpa using replays_torn hp hstart
  · intro hreplays
    cases appended with
    | nil => exact .inl rfl
    | cons first rest =>
      exact .inr ⟨first, rest, rfl, prefix_of_replays_torn hp hstart hreplays⟩

end Recovery

/-- The server was stopped in the middle of `SET b 2`; the next start recovers `SET a 1`. -/
theorem torn_tail_recovery_set :
    ∃ (started : List Value × AofWriter) (w : AofWriter),
      Torn [ascii "SET", ascii "b", ascii "2"] (ascii "*3\r\n$3\r\nSET\r\n$1\r\nb") ∧
        initializePersistence recordValue [] .always
          (encodeCommands [[ascii "SET", ascii "a", ascii "1"]] ++
            ascii "*3\r\n$3\r\nSET\r\n$1\r\nb") = .ok started ∧
        appendCommands started.2 [] = .ok w ∧
        Replays w.close.file ([[ascii "SET", ascii "a", ascii "1"]] ++ []) := by
  have htorn : Torn [ascii "SET", ascii "b", ascii "2"]
      (ascii "*3\r\n$3\r\nSET\r\n$1\r\nb") := by decide
  have hlimits : ∀ tokens ∈ [[ascii "SET", ascii "a", ascii "1"]], WithinLimits tokens := by decide
  have hstart := initializePersistence_recordValue .always hlimits
    (p := ascii "*3\r\n$3\r\nSET\r\n$1\r\nb") (by decide +kernel)
  exact ⟨_, _, htorn, hstart, rfl, (torn_tail_recovery htorn [] hstart rfl).1 rfl⟩

/-- The same file; `SET c 3` is appended behind the torn `SET b 2` and is not read back. -/
theorem torn_tail_loses_append :
    ∃ (started : List Value × AofWriter) (w : AofWriter),
      Torn [ascii "SET", ascii "b", ascii "2"] (ascii "*3\r\n$3\r\nSET\r\n$1\r\nb") ∧
        initializePersistence recordValue [] .always
          (encodeCommands [[ascii "SET", ascii "a", ascii "1"]] ++
            ascii "*3\r\n$3\r\nSET\r\n$1\r\nb") = .ok started ∧
        appendCommands started.2 [[ascii "SET", ascii "c", ascii "3"]] = .ok w ∧
        ¬Replays w.close.file ([[ascii "SET", ascii "a", ascii "1"]] ++
          [[ascii "SET", ascii "c", ascii "3"]]) := by
  have htorn : Torn [ascii "SET", ascii "b", ascii "2"]
      (ascii "*3\r\n$3\r\nSET\r\n$1\r\nb") := by decide
  have hlimits : ∀ tokens ∈ [[ascii "SET", ascii "a", ascii "1"]], WithinLimits tokens := by decide
  have hstart := initializePersistence_recordValue .always hlimits
    (p := ascii "*3\r\n$3\r\nSET\r\n$1\r\nb") (by decide +kernel)
  obtain ⟨w, happend, hfile⟩ := appendCommands_openWriter .always
    (encodeCommands [[ascii "SET", ascii "a", ascii "1"]] ++
      ascii "*3\r\n$3\r\nSET\r\n$1\r\nb") [[ascii "SET", ascii "c", ascii "3"]]
  refine ⟨_, w, htorn, hstart, happend, fun hreplays => ?_⟩
  rw [hfile, append_assoc] at hreplays
  have hprefix := prefix_of_replays_torn htorn hstart hreplays
  exact absurd hprefix (by decide)

end Stash
