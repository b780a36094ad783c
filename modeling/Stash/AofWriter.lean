import Stash.RespValue

/-!
# The append-only file writer

`aof.Writer` writes payloads through a `bufio.Writer` to a file that is opened for appending.
While a rewrite is active every payload is also kept in a rewrite buffer.  A finished rewrite
replaces the file by the generated snapshot followed by that buffer.

The model keeps the content of the file on disk and the bytes still in the buffered writer apart;
`contents` is what the file holds once the buffer is flushed.  The steps modelled are those of a
run in which the file system does not fail.
-/

namespace Stash

/-- `aof.Policy`. -/
inductive Policy where
  | always
  | everysec
  | no
  deriving DecidableEq, Repr

/-- `aof.Writer`. -/
structure AofWriter where
  policy : Policy
  /-- the content of the file on disk -/
  file : Bytes
  /-- the bytes held by the `bufio.Writer` -/
  buffered : Bytes
  rewriteBuffer : Bytes
  rewriteActive : Bool
  rewritePending : Bool
  closed : Bool
  deriving DecidableEq, Repr

inductive WriterError where
  | closed
  | rewriteInProgress
  deriving DecidableEq, Repr

namespace AofWriter

/-- The default buffer of `bufio.NewWriter`. -/
def writeBufferSize : Nat := 4096

/-- `OpenWriter` on a file with the given content: the file is opened for appending, and what it
holds stays. -/
def openWriter (policy : Policy) (file : Bytes) : AofWriter :=
  ⟨policy, file, [], [], false, false, false⟩

/-- What the file holds after a flush. -/
def contents (w : AofWriter) : Bytes :=
  w.file ++ w.buffered

/-- `bufio.Writer.Write`: a payload that does not fit fills the buffer, which is flushed; what is
left goes straight to the file if it is larger than the buffer. -/
def bufferWrite (w : AofWriter) (payload : Bytes) : AofWriter :=
  if w.buffered.length + payload.length ≤ writeBufferSize then
    { w with buffered := w.buffered ++ payload }
  else if w.buffered = [] then { w with file := w.file ++ payload }
  else
    let room := writeBufferSize - w.buffered.length
    let flushed := w.file ++ w.buffered ++ payload.take room
    let rest := payload.drop room
    if rest.length ≤ writeBufferSize then { w with file := flushed, buffered := rest }
    else { w with file := flushed ++ rest, buffered := [] }

def flushLocked (w : AofWriter) : AofWriter :=
  { w with file := w.file ++ w.buffered, buffered := [] }

/-- While a rewrite is active a payload is kept for the new file as well. -/
def bufferRewrite (w : AofWriter) (payload : Bytes) : AofWriter :=
  if w.rewriteActive then { w with rewriteBuffer := w.rewriteBuffer ++ payload } else w

/-- `Writer.append`. -/
def append (w : AofWriter) (payload : Bytes) (syncNow : Bool) : Except WriterError AofWriter :=
  if payload = [] then .ok w
  else if w.closed then .error .closed
  else
    let w := (w.bufferWrite payload).bufferRewrite payload
    .ok (if syncNow ∨ w.policy = .no then w.flushLocked else w)

/-- The choice between `Append` and `AppendSync` the server makes for durability frames. -/
def appendFrames (w : AofWriter) (frames : List Value) : Except WriterError AofWriter :=
  w.append (Value.encodeValues frames) (w.policy = .always)

/-- `Writer.Close`. -/
def close (w : AofWriter) : AofWriter :=
  if w.closed then w else { w.flushLocked with closed := true }

/-- `Writer.BeginRewrite`, up to the start of the background goroutine. -/
def beginRewrite (w : AofWriter) : Except WriterError AofWriter :=
  if w.closed then .error .closed
  else if w.rewritePending ∨ w.rewriteActive then .error .rewriteInProgress
  else .ok { w with rewritePending := true }

/-- The barrier that `runRewrite` passes to `SnapshotAllWithWriteBarrier`. -/
def activateRewrite (w : AofWriter) : AofWriter :=
  if w.closed then { w with rewritePending := false }
  else { w with rewriteActive := true, rewritePending := false, rewriteBuffer := [] }

def clearRewriteState (w : AofWriter) (active : Bool) : AofWriter :=
  if active then { w with rewriteActive := false, rewriteBuffer := [], rewritePending := false }
  else { w with rewritePending := false }

/-! ## What the file holds -/

@[simp] theorem contents_openWriter (policy : Policy) (file : Bytes) :
    (openWriter policy file).contents = file := by
  simp [openWriter, contents]

theorem bufferWrite_spec (w : AofWriter) (payload : Bytes) :
    ∃ file buffered, w.bufferWrite payload = { w with file := file, buffered := buffered } ∧
      file ++ buffered = w.contents ++ payload := by
  unfold bufferWrite contents
  split
  · exact ⟨_, _, rfl, by simp⟩
  split
  · rename_i h
    exact ⟨_, _, rfl, by simp [h]⟩
  simp only
  split
  · exact ⟨_, _, rfl, by simp⟩
  · exact ⟨_, _, rfl, by simp⟩

/-- **An append adds its payload at the end**, and to the rewrite buffer while a rewrite is
active; nothing else changes. -/
theorem append_spec {w w' : AofWriter} {payload : Bytes} {syncNow : Bool}
    (h : w.append payload syncNow = .ok w') :
    w'.contents = w.contents ++ payload ∧
      w'.rewriteBuffer = (if w.rewriteActive then w.rewriteBuffer ++ payload else w.rewriteBuffer) ∧
      w'.rewriteActive = w.rewriteActive ∧ w'.rewritePending = w.rewritePending ∧
      w'.closed = w.closed ∧ w'.policy = w.policy := by
  unfold append at h
  split at h
  · rename_i hnil
    simp only [Except.ok.injEq] at h
    subst h
    simp [hnil]
  split at h
  · simp at h
  obtain ⟨file, buffered, hwrite, hcontents⟩ := bufferWrite_spec w payload
  simp only [hwrite, bufferRewrite, Except.ok.injEq] at h
  subst h
  cases hactive : w.rewriteActive <;> simp only [Bool.false_eq_true, if_true, if_false] <;>
    split <;> simp_all [flushLocked, contents]

theorem append_ok (w : AofWriter) (payload : Bytes) (syncNow : Bool) (h : w.closed = false) :
    ∃ w', w.append payload syncNow = .ok w' := by
  unfold append
  split
  · exact ⟨_, rfl⟩
  · simp only [h, Bool.false_eq_true, if_false]
    exact ⟨_, rfl⟩

theorem file_close {w : AofWriter} (h : w.closed = false) : w.close.file = w.contents := by
  simp [close, h, flushLocked, contents]

end AofWriter

end Stash
