import Stash.AofWriter
import Stash.Machine

/-!
# Runs of the append-only file writer on a file system that fails

A writer accepts payloads, flushes them, and takes part in rewrites whose last act, the exchange of
the files, can fail in several ways.  `swapRewriteFileLocked` closes the old file before the
exchange and opens one again after it, with a new `bufio.Writer`: what the old one held is gone
unless the new file has it too.  So the log is kept always, exactly if no failed exchange finds
something to lose (`log_kept_iff`).
-/

namespace Stash

open List

/-- How the input and output of `finalizeRewrite` went.  Reopening the file always succeeds. -/
inductive Swap where
  /-- adding the buffered payloads to the temporary file, syncing or closing it failed -/
  | tempFailed
  /-- closing the old file failed -/
  | closeFailed
  /-- the rename failed, and the old file is still there -/
  | renameFailed
  /-- the rename failed because the target was there; it was removed, and the second rename failed -/
  | removed
  /-- the file was replaced, but syncing the directory failed -/
  | notSynced
  /-- nothing failed -/
  | done
  deriving DecidableEq, Repr

namespace AofWriter

/-- `bufio.Writer.Flush` when the file takes only some of the bytes. -/
def flushPart (w : AofWriter) (written : Nat) : AofWriter :=
  { w with file := w.file ++ w.buffered.take written, buffered := w.buffered.drop written }

/-- `swapRewriteFileLocked`, with `replaceFile` and `reopenAppendOnlyFileLocked`. -/
def swapRewriteFile (w : AofWriter) (tempFile : Bytes) : Swap → AofWriter
  | .tempFailed | .closeFailed => w
  | .renameFailed => { w with buffered := [] }
  | .removed => { w with file := [], buffered := [] }
  | .notSynced | .done => { w with file := tempFile ++ w.rewriteBuffer, buffered := [] }

/-- `finalizeRewrite` with its failures. -/
def finalizeRewriteWith (w : AofWriter) (tempFile : Bytes) (outcome : Swap) : AofWriter :=
  if w.closed then w.clearRewriteState true
  else (w.swapRewriteFile tempFile outcome).clearRewriteState true

/-- The append goes to the file, not only to the buffer. -/
def touchesFile (w : AofWriter) (payload : Bytes) (syncNow : Bool) : Bool :=
  syncNow || w.policy = .no || writeBufferSize < w.buffered.length + payload.length

end AofWriter

/-- A writer with the state of its file, and what it is meant to have logged. -/
structure LoggedWriter where
  writer : AofWriter
  /-- the file was closed by a failed exchange -/
  fileClosed : Bool
  /-- the `bufio.Writer` keeps the error of a failed flush -/
  broken : Bool
  /-- the payload of the snapshot of the rewrite that is active -/
  snapshot : Bytes
  /-- what the file held at first, or the snapshot of the last rewrite that succeeded -/
  base : Bytes
  /-- the payloads accepted since the base was fixed -/
  accepted : Bytes
  /-- the payloads accepted since the barrier of the rewrite that is active -/
  sinceBarrier : Bytes
  deriving DecidableEq, Repr

/-- What happens to a writer: appends that return no error, flushes, and the steps of a rewrite. -/
inductive WriterStep where
  | append (payload : Bytes) (syncNow : Bool)
  | flush (written : Nat)
  | beginRewrite
  | cancelRewrite
  | barrier (snapshot : Bytes)
  | abandonRewrite
  | finalizeRewrite (outcome : Swap)
  deriving DecidableEq, Repr

namespace LoggedWriter

/-- A writer that was just opened on a file. -/
def opened (policy : Policy) (file : Bytes) : LoggedWriter :=
  ⟨.openWriter policy file, false, false, [], file, [], []⟩

/-- An append that returns no error. -/
def append (l : LoggedWriter) (payload : Bytes) (syncNow : Bool) : Option LoggedWriter :=
  if payload ≠ [] ∧ (l.broken ∨ l.fileClosed ∧ l.writer.touchesFile payload syncNow) then none
  else
    match l.writer.append payload syncNow with
    | .error _ => none
    | .ok writer =>
      some { l with
        writer := writer
        accepted := l.accepted ++ payload
        sinceBarrier := if l.writer.rewriteActive then l.sinceBarrier ++ payload
          else l.sinceBarrier }

/-- A flush, of which the file may take only a part.  A `bufio.Writer` with an error does
nothing. -/
def flush (l : LoggedWriter) (written : Nat) : LoggedWriter :=
  if l.broken then l
  else
    let written := if l.fileClosed then 0 else written
    { l with
      writer := l.writer.flushPart written
      broken := written < l.writer.buffered.length }

/-- The exchange of the files.  A file that a failed exchange closed cannot be closed again. -/
def finalize (l : LoggedWriter) (outcome : Swap) : Option LoggedWriter :=
  if l.fileClosed ∧ outcome ≠ .tempFailed ∧ outcome ≠ .closeFailed then none
  else
    let writer := l.writer.finalizeRewriteWith l.snapshot outcome
    match outcome with
    | .tempFailed => some { l with writer := writer }
    | .closeFailed => some { l with writer := writer, fileClosed := true }
    | .renameFailed | .removed | .notSynced => some { l with writer := writer, broken := false }
    | .done =>
      some { l with
        writer := writer
        broken := false
        base := l.snapshot
        accepted := l.sinceBarrier }

def step (l : LoggedWriter) : WriterStep → Option LoggedWriter
  | .append payload syncNow => l.append payload syncNow
  | .flush written => some (l.flush written)
  | .beginRewrite =>
    match l.writer.beginRewrite with
    | .error _ => none
    | .ok writer => some { l with writer := writer }
  | .cancelRewrite =>
    if l.writer.rewritePending then some { l with writer := l.writer.clearRewriteState false }
    else none
  | .barrier snapshot =>
    if l.writer.rewritePending then
      some { l with writer := l.writer.activateRewrite, snapshot := snapshot, sinceBarrier := [] }
    else none
  | .abandonRewrite =>
    if l.writer.rewriteActive then some { l with writer := l.writer.clearRewriteState true }
    else none
  | .finalizeRewrite outcome => if l.writer.rewriteActive then l.finalize outcome else none

/-- The log is kept: the file and the buffer hold the base and every accepted payload, in order. -/
def Kept (l : LoggedWriter) : Prop :=
  l.writer.contents = l.base ++ l.accepted

instance (l : LoggedWriter) : Decidable l.Kept :=
  inferInstanceAs (Decidable (_ = _))

/-- A failed exchange finds nothing to lose: an empty buffer when the old file stays, an empty log
when it is removed, the same bytes when it is replaced after all. -/
def Harmless (l : LoggedWriter) : WriterStep → Prop
  | .finalizeRewrite .renameFailed => l.writer.buffered = []
  | .finalizeRewrite .removed => l.writer.contents = []
  | .finalizeRewrite .notSynced => l.snapshot ++ l.writer.rewriteBuffer = l.writer.contents
  | _ => True

/-- What holds besides: the writer is open, and the rewrite buffer has what came after the
barrier. -/
structure Sound (l : LoggedWriter) : Prop where
  kept : l.Kept
  isOpen : l.writer.closed = false
  buffer : l.writer.rewriteActive = true → l.writer.rewriteBuffer = l.sinceBarrier

theorem sound_opened (policy : Policy) (file : Bytes) : (opened policy file).Sound where
  kept := by simp [Kept, opened]
  isOpen := rfl
  buffer h := by cases h

variable {l l' : LoggedWriter}

theorem Sound.append (h : l.Sound) {payload : Bytes} {syncNow : Bool}
    (hstep : l.append payload syncNow = some l') : l'.Sound := by
  unfold LoggedWriter.append at hstep
  split at hstep
  · cases hstep
  · split at hstep
    · cases hstep
    · rename_i writer happend
      cases hstep
      obtain ⟨hcontents, hbuffer, hactive, -, hclosed, -⟩ := AofWriter.append_spec happend
      refine ⟨?_, hclosed.trans h.isOpen, fun hact => ?_⟩
      · change writer.contents = l.base ++ (l.accepted ++ payload)
        rw [hcontents, h.kept, append_assoc]
      · have hact' : l.writer.rewriteActive = true := hactive ▸ hact
        change writer.rewriteBuffer = if l.writer.rewriteActive then _ else _
        rw [hbuffer, if_pos hact', if_pos hact', h.buffer hact']

theorem contents_flushPart (w : AofWriter) (written : Nat) :
    (w.flushPart written).contents = w.contents := by
  simp [AofWriter.flushPart, AofWriter.contents]

section

variable (h : l.Sound)
include h

theorem Sound.flush (written : Nat) : (l.flush written).Sound := by
  unfold LoggedWriter.flush
  split
  · exact h
  · exact ⟨(contents_flushPart _ _).trans h.kept, h.isOpen, h.buffer⟩

/-- The exchange of the files keeps the log exactly if it is harmless. -/
theorem Sound.finalize (hactive : l.writer.rewriteActive = true)
    {outcome : Swap} (hstep : l.finalize outcome = some l') :
    (l'.Kept ↔ l.Harmless (.finalizeRewrite outcome)) ∧ l'.writer.closed = false ∧
      l'.writer.rewriteActive = false := by
  have hkept : l.writer.contents = l.base ++ l.accepted := h.kept
  unfold LoggedWriter.finalize at hstep
  split at hstep
  · cases hstep
  · simp only [AofWriter.finalizeRewriteWith, h.isOpen, Bool.false_eq_true, if_false] at hstep
    cases outcome with
    | tempFailed =>
      cases hstep
      exact ⟨iff_of_true hkept trivial, h.isOpen, rfl⟩
    | closeFailed =>
      cases hstep
      exact ⟨iff_of_true hkept trivial, h.isOpen, rfl⟩
    | renameFailed =>
      cases hstep
      refine ⟨?_, h.isOpen, rfl⟩
      change l.writer.file ++ [] = l.base ++ l.accepted ↔ l.writer.buffered = []
      rw [← hkept, AofWriter.contents, append_nil]
      exact self_eq_append_right
    | removed =>
      cases hstep
      refine ⟨?_, h.isOpen, rfl⟩
      change ([] : Bytes) ++ [] = l.base ++ l.accepted ↔ l.writer.contents = []
      rw [← hkept, append_nil]
      exact eq_comm
    | notSynced =>
      cases hstep
      refine ⟨?_, h.isOpen, rfl⟩
      change (l.snapshot ++ l.writer.rewriteBuffer) ++ [] = l.base ++ l.accepted ↔ _
      rw [← hkept, append_nil]
      rfl
    | done =>
      cases hstep
      refine ⟨iff_of_true ?_ trivial, h.isOpen, rfl⟩
      change (l.snapshot ++ l.writer.rewriteBuffer) ++ [] = l.snapshot ++ l.sinceBarrier
      rw [append_nil, h.buffer hactive]

theorem Sound.beginRewrite {writer : AofWriter} (hbegin : l.writer.beginRewrite = .ok writer) :
    ({ l with writer := writer } : LoggedWriter).Sound := by
  unfold AofWriter.beginRewrite at hbegin
  split at hbegin
  · cases hbegin
  · split at hbegin
    · cases hbegin
    · cases hbegin
      exact ⟨h.kept, h.isOpen, h.buffer⟩

theorem Sound.barrier (snapshot : Bytes) :
    ({ l with writer := l.writer.activateRewrite, snapshot := snapshot, sinceBarrier := [] } :
      LoggedWriter).Sound := by
  have hactivate : l.writer.activateRewrite =
      { l.writer with rewriteActive := true, rewritePending := false, rewriteBuffer := [] } :=
    if_neg (by rw [h.isOpen]; decide)
  rw [hactivate]
  exact ⟨h.kept, h.isOpen, fun _ => rfl⟩

/-- **One step keeps the log exactly if it is harmless.** -/
theorem Sound.step {s : WriterStep}
    (hstep : l.step s = some l') : (l'.Kept ↔ l.Harmless s) ∧ (l'.Kept → l'.Sound) := by
  have hharmless : l.Harmless s → l'.Sound → (l'.Kept ↔ l.Harmless s) ∧ (l'.Kept → l'.Sound) :=
    fun hs hl' => ⟨iff_of_true hl'.kept hs, fun _ => hl'⟩
  cases s with
  | append payload syncNow => exact hharmless trivial (h.append hstep)
  | flush written =>
    cases hstep
    exact hharmless trivial (h.flush written)
  | beginRewrite =>
    simp only [LoggedWriter.step] at hstep
    split at hstep
    · cases hstep
    · rename_i writer hbegin
      cases hstep
      exact hharmless trivial (h.beginRewrite hbegin)
  | cancelRewrite =>
    obtain ⟨-, hstep⟩ := Option.ite_none_right_eq_some.mp hstep
    cases hstep
    exact hharmless trivial ⟨h.kept, h.isOpen, h.buffer⟩
  | barrier snapshot =>
    obtain ⟨-, hstep⟩ := Option.ite_none_right_eq_some.mp hstep
    cases hstep
    exact hharmless trivial (h.barrier snapshot)
  | abandonRewrite =>
    obtain ⟨-, hstep⟩ := Option.ite_none_right_eq_some.mp hstep
    cases hstep
    exact hharmless trivial ⟨h.kept, h.isOpen, fun hactive => by cases hactive⟩
  | finalizeRewrite outcome =>
    obtain ⟨hactive, hstep⟩ := Option.ite_none_right_eq_some.mp hstep
    obtain ⟨hkept, hopen, hinactive⟩ := h.finalize hactive hstep
    refine ⟨hkept, fun hl' => ⟨hl', hopen, fun hactive' => ?_⟩⟩
    rw [hinactive] at hactive'
    cases hactive'

end

/-- **The writer never drops an accepted payload, exactly if every failed exchange of the files is
harmless**: along any run of appends, flushes and rewrites, from any file. -/
theorem log_kept_iff (policy : Policy) (file : Bytes) (steps : List WriterStep) :
    Machine.Always step Kept steps (opened policy file) ↔
      Machine.Heeds step Harmless steps (opened policy file) :=
  Machine.always_iff_heeds (fun hl hs hstep => (hl.step hstep).2 ((hl.step hstep).1.mpr hs))
    (fun hl hstep hkept => (hl.step hstep).1.mp hkept) (fun _ => Sound.kept)
    (sound_opened policy file)

/-- An append that stays in the buffer, and a rewrite whose rename fails. -/
def bufferedRewrite : List WriterStep :=
  [.append [118] false, .beginRewrite, .barrier [115], .finalizeRewrite .renameFailed]

/-- The accepted payload is gone. -/
theorem log_loses_payload :
    ¬Machine.Always step Kept bufferedRewrite (opened .everysec []) := by
  intro h
  have hlost := h.last (show Machine.run step bufferedRewrite (opened .everysec []) = some _ from rfl)
  exact absurd hlost (by decide)

end LoggedWriter

end Stash
