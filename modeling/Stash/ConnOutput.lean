import Stash.ConnMachine

/-!
# Output is a queue

Responses and pushed payloads are appended to one write buffer; `Flush` moves an offset over what a
writer took, and the part in front of the offset is dropped now and then before an append.  What a
writer took, followed by what is behind the offset, is always all that was appended, in order: no
byte is lost, repeated or moved.
-/

namespace Stash

open DecimalText List

/-- The encodings of responses, one after the other. -/
def encodings (responses : List Response) : Bytes :=
  Value.encodeValues responses.reduceOption

@[simp] theorem encodings_nil : encodings [] = [] :=
  rfl

theorem encodings_one (value : Value) : encodings [some value] = value.encode := by
  change Value.encodeValues [value] = value.encode
  simp [Value.encodeValues]

namespace ConnMachine

/-! ## What the operations do to the output -/

variable (m : ConnMachine) (payload : Bytes)

@[simp] theorem output_compactWriteBuf : m.compactWriteBuf.output = m.output := by
  unfold compactWriteBuf
  split <;> rfl

theorem writeOff_compactWriteBuf :
    m.compactWriteBuf.writeOff ≤ m.compactWriteBuf.writeBuf.length := by
  unfold compactWriteBuf
  split
  · omega
  · exact Nat.zero_le _

@[simp] theorem state_compactWriteBuf : m.compactWriteBuf.state = m.state := by
  unfold compactWriteBuf
  split <;> rfl

@[simp] theorem pending_compactWriteBuf : m.compactWriteBuf.pending = m.pending :=
    by
  unfold compactWriteBuf
  split <;> rfl

/-- Bytes are appended to the write buffer, after the flushed part was dropped or not. -/
def appended (m : ConnMachine) (payload : Bytes) : ConnMachine :=
  { m.compactWriteBuf with writeBuf := m.compactWriteBuf.writeBuf ++ payload }

@[simp] theorem output_appended : (m.appended payload).output = m.output ++ payload := by
  change (m.compactWriteBuf.writeBuf ++ payload).drop m.compactWriteBuf.writeOff = _
  rw [drop_append_of_le_length m.writeOff_compactWriteBuf, ← output_compactWriteBuf]
  rfl

theorem appendValues_ok {dst encoded : Bytes} {values : List Response}
    (h : appendValues dst values = .ok encoded) : encoded = dst ++ encodings values := by
  induction values generalizing dst with
  | nil =>
    obtain rfl := Except.ok.inj h
    exact (append_nil dst).symm
  | cons value values ih =>
    cases value with
    | none => cases h
    | some value =>
      rw [ih h, append_assoc]
      rfl

theorem bufferResponses_ok {m m' : ConnMachine} {values : List Response}
    (h : m.bufferResponses values = (m', none)) :
    values = [] ∧ m' = m ∨ m' = m.appended (encodings values) := by
  unfold bufferResponses at h
  split at h
  · rename_i hnil
    exact .inl ⟨hnil, (Prod.mk.inj h).1.symm⟩
  · right
    simp only at h
    split at h
    · cases (Prod.mk.inj h).2
    · rename_i encoded hencoded
      split at h
      · cases (Prod.mk.inj h).2
      · rw [← (Prod.mk.inj h).1, appendValues_ok hencoded]
        rfl

/-- `compactWriteBuf` changes nothing but the write buffer, and so do the others. -/
theorem compactWriteBuf_frame : ∃ writeBuf writeOff,
    m.compactWriteBuf = { m with writeBuf := writeBuf, writeOff := writeOff } := by
  unfold compactWriteBuf
  split
  · exact ⟨_, _, rfl⟩
  · exact ⟨_, _, rfl⟩

theorem appended_frame : ∃ writeBuf writeOff,
    m.appended payload = { m with writeBuf := writeBuf, writeOff := writeOff } := by
  obtain ⟨writeBuf, writeOff, hcompact⟩ := m.compactWriteBuf_frame
  unfold appended
  rw [hcompact]
  exact ⟨_, _, rfl⟩

theorem bufferResponses_frame (values : List Response) : ∃ writeBuf writeOff,
    (m.bufferResponses values).1 = { m with writeBuf := writeBuf, writeOff := writeOff } := by
  obtain ⟨writeBuf, writeOff, hcompact⟩ := m.compactWriteBuf_frame
  unfold bufferResponses
  split
  · exact ⟨_, _, rfl⟩
  · simp only [hcompact]
    split
    · exact ⟨_, _, rfl⟩
    · split
      · exact ⟨_, _, rfl⟩
      · exact ⟨_, _, rfl⟩

@[simp] theorem state_close (err : Option ConnError) : (m.close err).state = .closed := by
  unfold close
  split
  · assumption
  · rfl

/-- **What `ProcessNext` does.** -/
inductive Processes (quote : Bytes → Bytes) (run : ConnCommandRunner) (m : ConnMachine) :
    ConnMachine × Except ConnError Bool → Prop
  | closed (hstate : m.state = .closed) : Processes quote run m (m, .error .machineClosed)
  | idle (hstate : m.state ≠ .closed) (hpending : m.pending = []) : Processes quote run m (m, .ok false)
  | failed {event : ConnEvent} {pending : List ConnEvent} {writeBuf : Bytes} {writeOff : Nat}
    {err : ConnError} (hstate : m.state ≠ .closed) (hpending : m.pending = event :: pending) :
    Processes quote run m
      ({ m with pending := pending, writeBuf := writeBuf, writeOff := writeOff }.close (some err),
        .error err)
  | done {event : ConnEvent} {pending : List ConnEvent} {responses : List Response}
    {m' : ConnMachine} (hstate : m.state ≠ .closed) (hpending : m.pending = event :: pending)
    (hresponses : respond quote run event = .ok responses)
    (hbuffer : { m with pending := pending }.bufferResponses responses = (m', none)) :
    Processes quote run m (m', .ok !m'.pending.isEmpty)

theorem processes_processNext (quote : Bytes → Bytes) (m : ConnMachine) (run : ConnCommandRunner) :
    Processes quote run m (m.processNext quote run) := by
  unfold processNext
  split
  · exact .closed ‹_›
  · rename_i hstate
    split
    · exact .idle hstate ‹_›
    · rename_i event pending hpending
      simp only
      split
      · exact .failed hstate hpending
      · rename_i responses hresponses
        obtain ⟨writeBuf, writeOff, hframe⟩ :=
          bufferResponses_frame { m with pending := pending } responses
        split
        · rename_i heq
          rw [heq] at hframe
          simp only at hframe
          subst hframe
          exact .failed hstate hpending
        · exact .done hstate hpending hresponses ‹_›

theorem processNext_done {quote : Bytes → Bytes} {run : ConnCommandRunner} {m m' : ConnMachine}
    {event : ConnEvent} {pending : List ConnEvent} {responses : List Response}
    (hopen : m.state ≠ .closed) (hpending : m.pending = event :: pending)
    (hresponses : respond quote run event = .ok responses)
    (hbuffer : { m with pending := pending }.bufferResponses responses = (m', none)) :
    m.processNext quote run = (m', .ok !m'.pending.isEmpty) := by
  unfold processNext
  rw [if_neg hopen, hpending]
  simp only [hresponses, hbuffer]

theorem bufferResponses_one {m : ConnMachine} {value : Value} (hoff : m.writeOff = 0)
    (hlimit : (m.writeBuf ++ value.encode).length ≤ m.maxWriteBuffer) :
    m.bufferResponses [some value] = ({ m with writeBuf := m.writeBuf ++ value.encode }, none) := by
  have hcompact : m.compactWriteBuf = m := if_pos (.inl hoff)
  have hle : ¬m.maxWriteBuffer < (m.writeBuf ++ value.encode).length - m.writeOff := by omega
  unfold bufferResponses
  rw [if_neg (cons_ne_nil _ _), hcompact]
  exact if_neg hle

/-- **What `Flush` does**: the writer takes some of the output, and the machine may close. -/
inductive Flushes (m : ConnMachine) : ConnMachine × Bytes × Option ConnError → Prop
  | closed (hstate : m.state = .closed) : Flushes m (m, [], some .machineClosed)
  | idle (hstate : m.state ≠ .closed) (houtput : m.output = []) :
    Flushes m (m.finishClosing, [], none)
  | written {taken : Bytes} (hstate : m.state ≠ .closed) (rest : Bytes)
    (houtput : m.output = taken ++ rest) :
    Flushes m ((m.written taken.length).finishClosing, taken, none)
  | failed {taken : Bytes} {err : ConnError} (hstate : m.state ≠ .closed) (rest : Bytes)
    (houtput : m.output = taken ++ rest) : Flushes m (m.written taken.length, taken, some err)

theorem flushes_flush (w : Bytes → WriteAnswer) : Flushes m (m.flush w) := by
  unfold flush
  split
  · exact .closed ‹_›
  · rename_i hstate
    split
    · have houtput : m.output = m.output.take (w m.output).n ++ m.output.drop (w m.output).n :=
        (take_append_drop _ _).symm
      simp only
      split
      · exact .failed hstate _ houtput
      · exact .written hstate _ houtput
    · exact .idle hstate (drop_eq_nil_of_le (not_lt.mp ‹_›))

theorem output_written {m : ConnMachine} {taken rest : Bytes} (h : m.output = taken ++ rest) :
    (m.written taken.length).output = rest := by
  have hrest : rest = m.writeBuf.drop (m.writeOff + taken.length) := by
    rw [← drop_drop]
    change rest = m.output.drop taken.length
    rw [h, drop_left]
  unfold written
  split
  · rw [hrest, drop_eq_nil_of_le ‹_›]
    rfl
  · exact hrest.symm

theorem written_frame (n : Nat) : ∃ writeBuf writeOff,
    m.written n = { m with writeBuf := writeBuf, writeOff := writeOff } := by
  unfold written
  split
  · exact ⟨_, _, rfl⟩
  · exact ⟨_, _, rfl⟩

@[simp] theorem state_written (n : Nat) : (m.written n).state = m.state := by
  unfold written
  split <;> rfl

@[simp] theorem pending_written (n : Nat) : (m.written n).pending = m.pending :=
    by
  unfold written
  split <;> rfl

/-- The last step of `Flush` leaves the machine alone, or closes it when all is done. -/
theorem finishClosing_cases :
    m.finishClosing = m ∨ m.state = .closing ∧ m.pendingOutputBytes = 0 ∧ m.pending = [] ∧
      m.finishClosing = m.close none := by
  unfold finishClosing
  split
  · rename_i h
    obtain ⟨hstate, houtput, hpending⟩ := h
    have hnone : m.pendingOutputBytes = 0 := by
      simpa [hasPendingOutput] using houtput
    exact .inr ⟨hstate, hnone, hpending, rfl⟩
  · exact .inl rfl

theorem written_zero {m : ConnMachine} (h : m.writeOff < m.writeBuf.length) : m.written 0 = m := by
  unfold written
  rw [if_neg (by omega)]
  rfl

theorem flush_blocked {m : ConnMachine} (hopen : m.state ≠ .closed)
    (hoff : m.writeOff < m.writeBuf.length) {w : Bytes → WriteAnswer} {err : ConnError}
    (hw : w m.output = ⟨0, some err⟩) : m.flush w = (m, [], some err) := by
  unfold flush
  rw [if_neg hopen, if_pos hoff]
  simp only [hw, take_zero, length_nil, written_zero hoff]

theorem flush_all {m : ConnMachine} (hactive : m.state = .active)
    (hoff : m.writeOff < m.writeBuf.length) {w : Bytes → WriteAnswer}
    (hw : w m.output = ⟨m.output.length, none⟩) :
    m.flush w = ({ m with writeBuf := [], writeOff := 0 }, m.output, none) := by
  have hwritten : m.written m.output.length = { m with writeBuf := [], writeOff := 0 } := by
    unfold written
    rw [if_pos (by rw [length_output, pendingOutputBytes]; omega)]
  unfold flush
  rw [if_neg (by rw [hactive]; decide), if_pos hoff]
  simp only [hw, take_length, hwritten]
  unfold finishClosing
  rw [if_neg]
  rintro ⟨hclosing, -⟩
  rw [hactive] at hclosing
  cases hclosing

theorem bufferEncoded_cases :
    m.bufferEncoded payload = (m.appended payload, none) ∨
    payload = [] ∧ m.bufferEncoded payload = (m, none) ∨
      ∃ err, m.bufferEncoded payload = (m, some err) := by
  unfold bufferEncoded
  split
  · exact .inr (.inr ⟨_, rfl⟩)
  · split
    · exact .inr (.inl ⟨‹_›, rfl⟩)
    · split
      · exact .inr (.inr ⟨_, rfl⟩)
      · exact .inl rfl

/-- `Feed` leaves the output alone, and a machine that is closed as it is. -/
theorem feed_output (data : Bytes) :
    (m.feed data).1.writeBuf = m.writeBuf ∧ (m.feed data).1.writeOff = m.writeOff ∧
      (m.state = .closed → (m.feed data).1.state = .closed) := by
  unfold feed
  split
  · exact ⟨rfl, rfl, id⟩
  · rename_i hstate
    have hopen : m.state = .active := not_not.mp hstate
    have hvacuous : ∀ {s : ConnState}, m.state = .closed → s = .closed := by
      intro s hclosed
      rw [hopen] at hclosed
      cases hclosed
    simp only
    split
    · exact ⟨rfl, rfl, id⟩
    · split
      · exact ⟨rfl, rfl, hvacuous⟩
      · unfold checkReadBuffer
        split
        · exact ⟨rfl, rfl, hvacuous⟩
        · exact ⟨rfl, rfl, id⟩

/-! ## Sequences of calls -/

/-- The calls to a machine; each flush has its writer, each execution its runner. -/
inductive ConnCall where
  | feed (data : Bytes)
  | processNext (run : ConnCommandRunner)
  | bufferEncoded (payload : Bytes)
  | flush (w : Bytes → WriteAnswer)
  | close (err : Option ConnError)

/-- The responses `ProcessNext` produces. -/
def produced (quote : Bytes → Bytes) (m : ConnMachine) (run : ConnCommandRunner) : List Response :=
  if m.state = .closed then []
  else
    match m.pending with
    | [] => []
    | event :: _ => (respond quote run event).toOption.getD []

/-- A machine, what its writers took, and what was handed to it for output: the encodings of all
responses produced and the payloads that `BufferEncoded` took. -/
structure Wire where
  machine : ConnMachine
  accepted : Bytes := []
  handed : Bytes := []

/-- One call. -/
def Wire.call (quote : Bytes → Bytes) (wire : Wire) : ConnCall → Wire
  | .feed data => { wire with machine := (wire.machine.feed data).1 }
  | .processNext run =>
    { wire with
      machine := (wire.machine.processNext quote run).1
      handed := wire.handed ++ encodings (wire.machine.produced quote run) }
  | .bufferEncoded payload =>
    { wire with
      machine := (wire.machine.bufferEncoded payload).1
      handed := wire.handed ++ if (wire.machine.bufferEncoded payload).2 = none then payload else [] }
  | .flush w =>
    { wire with
      machine := (wire.machine.flush w).1
      accepted := wire.accepted ++ (wire.machine.flush w).2.1 }
  | .close err => { wire with machine := wire.machine.close err }

/-- Some calls, one after the other. -/
def Wire.calls (quote : Bytes → Bytes) (wire : Wire) (calls : List ConnCall) : Wire :=
  calls.foldl (Wire.call quote) wire

/-- **The invariant**: until the machine is closed, what was taken and what is left is what was handed
over. -/
def Lossless (m : ConnMachine) (accepted handed : Bytes) : Prop :=
  m.state ≠ .closed → accepted ++ m.output = handed

section Calls

variable {quote : Bytes → Bytes} {m : ConnMachine} {accepted handed : Bytes}

theorem lossless_of_closed (hstate : m.state = .closed) : Lossless m accepted handed :=
  fun hopen => absurd hstate hopen

section

variable (h : Lossless m accepted handed)
include h

theorem Lossless.feed (data : Bytes) : Lossless (m.feed data).1 accepted handed := by
  obtain ⟨hbuf, hoff, hclosed⟩ := m.feed_output data
  intro hopen
  unfold output
  rw [hbuf, hoff]
  exact h fun hstate => hopen (hclosed hstate)

theorem Lossless.appended (payload : Bytes) :
    Lossless (m.appended payload) accepted (handed ++ payload) := by
  intro hopen
  have hstate : m.state ≠ .closed := by simpa [ConnMachine.appended] using hopen
  rw [output_appended, ← append_assoc, h hstate]

theorem Lossless.processNext (run : ConnCommandRunner) :
    Lossless (m.processNext quote run).1 accepted (handed ++ encodings (m.produced quote run)) := by
  have hprocesses := processes_processNext quote m run
  generalize m.processNext quote run = result at hprocesses
  cases hprocesses with
  | closed hstate => exact lossless_of_closed hstate
  | idle hstate hpending =>
    have hnone : m.produced quote run = [] := by
      unfold produced
      rw [if_neg hstate, hpending]
    rw [hnone]
    simpa using h
  | failed hstate _ => exact lossless_of_closed (state_close _ _)
  | @done event pending responses m' hstate hpending hresponses hbuffer =>
    have hsome : m.produced quote run = responses := by
      unfold produced
      rw [if_neg hstate, hpending]
      simp only [hresponses]
      rfl
    rw [hsome]
    have hpopped : Lossless { m with pending := pending } accepted handed := h
    rcases bufferResponses_ok hbuffer with ⟨rfl, rfl⟩ | rfl
    · simpa using hpopped
    · exact hpopped.appended _

theorem Lossless.bufferEncoded (payload : Bytes) :
    Lossless (m.bufferEncoded payload).1 accepted
      (handed ++ if (m.bufferEncoded payload).2 = none then payload else []) := by
  rcases m.bufferEncoded_cases payload with hcase | ⟨rfl, hcase⟩ | ⟨err, hcase⟩
  · rw [hcase]
    exact h.appended payload
  · rw [hcase]
    simpa using h
  · rw [hcase]
    simpa using h

theorem Lossless.written {taken rest : Bytes} (houtput : m.output = taken ++ rest) :
    Lossless (m.written taken.length) (accepted ++ taken) handed := by
  intro hopen
  rw [state_written] at hopen
  rw [output_written houtput, append_assoc, ← houtput]
  exact h hopen

theorem Lossless.finishClosing : Lossless m.finishClosing accepted handed := by
  rcases m.finishClosing_cases with hcase | ⟨-, -, -, hcase⟩
  · rwa [hcase]
  · rw [hcase]
    exact lossless_of_closed (state_close _ _)

theorem Lossless.flush (w : Bytes → WriteAnswer) :
    Lossless (m.flush w).1 (accepted ++ (m.flush w).2.1) handed := by
  have hflushes := flushes_flush m w
  generalize m.flush w = result at hflushes
  cases hflushes with
  | closed hstate => exact lossless_of_closed hstate
  | idle hstate houtput =>
    rw [append_nil]
    exact h.finishClosing
  | written hstate rest houtput => exact (h.written houtput).finishClosing
  | failed hstate rest houtput => exact h.written houtput

end

theorem Lossless.call {wire : Wire} (h : Lossless wire.machine wire.accepted wire.handed)
    (call : ConnCall) :
    Lossless (wire.call quote call).machine (wire.call quote call).accepted
      (wire.call quote call).handed := by
  cases call with
  | feed data => exact h.feed data
  | processNext run => exact h.processNext run
  | bufferEncoded payload => exact h.bufferEncoded payload
  | flush w => exact h.flush w
  | close err => exact lossless_of_closed (state_close _ _)

theorem Lossless.calls {wire : Wire} (h : Lossless wire.machine wire.accepted wire.handed)
    (calls : List ConnCall) :
    Lossless (wire.calls quote calls).machine (wire.calls quote calls).accepted
      (wire.calls quote calls).handed := by
  induction calls generalizing wire with
  | nil => exact h
  | cons call calls ih => exact ih (h.call call)

theorem flush_closes {w : Bytes → WriteAnswer} (hstate : m.state = .closing)
    (h : (m.flush w).1.state = .closed) : m.pending = [] ∧ (m.flush w).2.1 = m.output := by
  have hflushes := flushes_flush m w
  generalize m.flush w = result at hflushes h ⊢
  -- the last step is what closes
  have hclosing : ∀ {m' : ConnMachine}, m'.state = .closing → m'.finishClosing.state = .closed →
      m'.pending = [] ∧ m'.output = [] := by
    intro m' hstate' hclosed
    rcases m'.finishClosing_cases with hcase | ⟨-, hnone, hpending, -⟩
    · rw [hcase, hstate'] at hclosed
      cases hclosed
    · rw [← length_output] at hnone
      exact ⟨hpending, eq_nil_of_length_eq_zero hnone⟩
  cases hflushes with
  | closed hclosed =>
    rw [hstate] at hclosed
    cases hclosed
  | idle _ houtput => exact ⟨(hclosing hstate h).1, houtput.symm⟩
  | @written taken _ rest houtput =>
    obtain ⟨hpending, hnone⟩ := hclosing ((m.state_written _).trans hstate) h
    rw [pending_written] at hpending
    rw [output_written houtput] at hnone
    rw [houtput, hnone, append_nil]
    exact ⟨hpending, rfl⟩
  | failed _ rest houtput =>
    rw [state_written, hstate] at h
    cases h

end Calls

/-- **Output is a lossless queue.**  In every sequence of calls on a new machine, until it is closed,
the bytes taken by the writers followed by the pending output are what was handed over; a
`BufferEncoded` that fails leaves the output as it was; and `Flush` closes a closing machine only when
it has no event left and the writer took all of the output. -/
theorem output_fifo (quote : Bytes → Bytes) (maxReadBuffer maxWriteBuffer : Nat)
    (calls : List ConnCall) :
    let wire := Wire.calls quote { machine := new maxReadBuffer maxWriteBuffer } calls
    (wire.machine.state ≠ .closed → wire.accepted ++ wire.machine.output = wire.handed) ∧
    (∀ payload err, (wire.machine.bufferEncoded payload).2 = some err →
      (wire.machine.bufferEncoded payload).1.output = wire.machine.output) ∧
    ∀ w, wire.machine.state = .closing → (wire.machine.flush w).1.state = .closed →
      wire.machine.pending = [] ∧ (wire.machine.flush w).2.1 = wire.machine.output := by
  intro wire
  have hnew : Lossless (new maxReadBuffer maxWriteBuffer) [] [] := fun _ => rfl
  refine ⟨fun hopen => ?_, fun payload err herr => ?_, fun w hstate hclosed => ?_⟩
  · exact Lossless.calls hnew calls hopen
  · rcases wire.machine.bufferEncoded_cases payload with hcase | ⟨-, hcase⟩ | ⟨err, hcase⟩
    · rw [hcase] at herr
      cases herr
    · rw [hcase]
    · rw [hcase]
  · exact flush_closes hstate hclosed

end ConnMachine

end Stash
