import Stash.ConnInput
import Stash.EventLoop

/-!
# Parsed requests are resumed

Execution pauses while the pending output is above the high-water mark, and goes on when the socket is
writable.  So a connection with events that are not executed has to wait for its socket to become
writable: `Waits`.

The loop flushes once more after it has paused.  If the socket, which had been full a moment ago,
takes everything now, no output is left, no interest in writing is registered, and the events stay
where they are until the client happens to send more.  The same happens when pushed bytes are
delivered to a paused connection and its socket has become free.  Where neither happens, no event is
stranded.
-/

namespace Stash

open List

/-! ## Writes to the socket -/

/-- How many bytes the socket takes before it blocks or fails. -/
def room : List SysWrite → Nat
  | .wrote n :: writes => n + room writes
  | .interrupted :: writes => room writes
  | .wouldBlock :: _ => 0
  | .failed _ :: _ => 0
  | [] => 0

/-- A socket that is full stays full. -/
def StaysFull : List SysWrite → Prop
  | .wouldBlock :: writes => ∀ n, SysWrite.wrote n ∉ writes
  | .wrote _ :: writes => StaysFull writes
  | .interrupted :: writes => StaysFull writes
  | .failed _ :: writes => StaysFull writes
  | [] => True

theorem fdWrite_n (writes : List SysWrite) (p : Bytes) :
    (fdWrite writes p).1.n = min (room writes) p.length := by
  induction writes generalizing p with
  | nil => cases p <;> simp [fdWrite, room]
  | cons call writes ih =>
    cases p with
    | nil => simp [fdWrite]
    | cons b p =>
      cases call with
      | wrote n =>
        have hmore := ih ((b :: p).drop n)
        rw [length_drop] at hmore
        simp only [fdWrite, room]
        omega
      | interrupted => exact ih (b :: p)
      | wouldBlock => simp [fdWrite, room]
      | failed text => simp [fdWrite, room]

variable {writes : List SysWrite}

theorem fdWrite_all {p : Bytes} (h : (fdWrite writes p).1.err = none) :
    (fdWrite writes p).1.n = p.length := by
  induction writes generalizing p with
  | nil =>
    cases p with
    | nil => rfl
    | cons b p => cases h
  | cons call writes ih =>
    cases p with
    | nil => rfl
    | cons b p =>
      cases call with
      | wrote n =>
        have hmore := ih h
        rw [length_drop] at hmore
        simp only [fdWrite, hmore]
        omega
      | interrupted => exact ih h
      | wouldBlock => cases h
      | failed text => cases h

theorem room_eq_zero (h : ∀ n, SysWrite.wrote n ∉ writes) : room writes = 0 := by
  induction writes with
  | nil => rfl
  | cons call writes ih =>
    cases call with
    | wrote n => exact absurd mem_cons_self (h n)
    | interrupted => exact ih fun n hmem => h n (mem_cons_of_mem _ hmem)
    | wouldBlock => rfl
    | failed text => rfl

theorem staysFull_of_full (h : ∀ n, SysWrite.wrote n ∉ writes) : StaysFull writes := by
  induction writes with
  | nil => trivial
  | cons call writes ih =>
    have hrest : ∀ n, SysWrite.wrote n ∉ writes := fun n hmem => h n (mem_cons_of_mem _ hmem)
    cases call with
    | wrote n => exact absurd mem_cons_self (h n)
    | interrupted => exact ih hrest
    | wouldBlock => exact hrest
    | failed text => exact ih hrest

theorem StaysFull.fdWrite (h : StaysFull writes) (p : Bytes) :
    StaysFull (fdWrite writes p).2 ∧
      ((fdWrite writes p).1.err = some .wouldBlock → room (fdWrite writes p).2 = 0) := by
  induction writes generalizing p with
  | nil => cases p <;> exact ⟨trivial, fun _ => rfl⟩
  | cons call writes ih =>
    cases p with
    | nil => exact ⟨h, fun herr => by cases herr⟩
    | cons b p =>
      cases call with
      | wrote n => exact ih h _
      | interrupted => exact ih h _
      | wouldBlock => exact ⟨staysFull_of_full h, fun _ => room_eq_zero h⟩
      | failed text => exact ⟨h, fun herr => by cases herr⟩

namespace EventConn

open ConnMachine DecimalText Incremental

/-! ## One flush -/

@[simp] theorem registered_closeConn (conn : EventConn) (cause : Option ConnError) :
    (conn.closeConn cause).registered = false := by
  unfold closeConn
  split
  · rfl
  · exact Bool.eq_false_iff.mpr ‹_›

/-- **What `flushOnce` does** to a connection: it is closed, or its machine closes, or the socket has
taken as much as it has room for. -/
inductive Flushed (conn : EventConn) (writes : List SysWrite) :
    EventConn × List SysWrite × Bool → Prop
  | gone {conn' : EventConn} {left : List SysWrite} (hgone : conn'.registered = false) :
    Flushed conn writes (conn', left, false)
  | closed {conn' : EventConn} {left : List SysWrite} (hclosed : conn'.machine.state = .closed) :
    Flushed conn writes (conn', left, true)
  | flushed {conn' : EventConn} (hpending : conn'.machine.pending = conn.machine.pending)
    (hout : conn'.machine.pendingOutputBytes = conn.machine.pendingOutputBytes - room writes)
    (hblocked : conn'.machine.pendingOutputBytes ≠ 0 →
      (fdWrite writes conn.machine.output).1.err = some .wouldBlock) :
    Flushed conn writes (conn', (fdWrite writes conn.machine.output).2, true)

theorem pendingOutputBytes_written (m : ConnMachine) (writes : List SysWrite) :
    (m.written (m.output.take (fdWrite writes m.output).1.n).length).pendingOutputBytes =
      m.pendingOutputBytes - room writes := by
  rw [← length_output, output_written (take_append_drop _ _).symm, length_drop, fdWrite_n,
    length_output]
  omega

theorem flushed_flushOnce (conn : EventConn) (writes : List SysWrite) :
    Flushed conn writes (conn.flushOnce writes) := by
  unfold flushOnce flush
  by_cases hclosed : conn.machine.state = .closed
  · rw [if_pos hclosed]
    exact .gone (registered_closeConn _ _)
  rw [if_neg hclosed]
  by_cases hoff : conn.machine.writeOff < conn.machine.writeBuf.length
  · have hout := pendingOutputBytes_written conn.machine writes
    rw [if_pos hoff]
    simp only
    cases herr : (fdWrite writes conn.machine.output).1.err with
    | none =>
      -- everything is written, and a closing machine may close
      have hnone : (conn.machine.written
          (conn.machine.output.take (fdWrite writes conn.machine.output).1.n).length).pendingOutputBytes =
            0 := by
        rw [← length_output, output_written (take_append_drop _ _).symm, length_drop,
          fdWrite_all herr, Nat.sub_self]
      have hpending := pending_written conn.machine
        (conn.machine.output.take (fdWrite writes conn.machine.output).1.n).length
      generalize conn.machine.written _ = m at hout hnone hpending
      rcases m.finishClosing_cases with hcase | ⟨-, -, -, hcase⟩
      · simp only [hcase]
        exact .flushed hpending hout fun hne => absurd hnone hne
      · simp only [hcase]
        exact .closed (state_close _ _)
    | some err =>
      by_cases hblock : err = .wouldBlock
      · subst hblock
        exact .flushed (pending_written _ _) hout fun _ => herr
      · cases err with
        | wouldBlock => exact absurd rfl hblock
        | machineClosed => exact .gone (registered_closeConn _ _)
        | proto err => exact .gone (registered_closeConn _ _)
        | outputExceedsLimit limit => exact .gone (registered_closeConn _ _)
        | unsupportedValueType => exact .gone (registered_closeConn _ _)
        | external text => exact .gone (registered_closeConn _ _)
  · have hnone : conn.machine.pendingOutputBytes = 0 := Nat.sub_eq_zero_of_le (not_lt.mp hoff)
    rw [if_neg hoff]
    simp only
    rcases conn.machine.finishClosing_cases with hcase | ⟨-, -, -, hcase⟩
    · rw [hcase]
      refine .flushed rfl ?_ fun hne => absurd hnone hne
      change conn.machine.pendingOutputBytes = _
      omega
    · rw [hcase]
      exact .closed (state_close _ _)

/-! ## The end of a step -/

/-- **A connection that waits**: events that are not executed are resumed when the socket is
writable. -/
def Waits (conn : EventConn) : Prop :=
  conn.registered = true → conn.machine.pending ≠ [] → conn.wantWrite = true

variable {conn : EventConn} {writes : List SysWrite} {m m' : ConnMachine}

theorem waits_of_gone (h : conn.registered = false) : conn.Waits := by
  intro hreg
  rw [h] at hreg
  cases hreg

variable (quote : Bytes → Bytes) (set : Option ConnError)

theorem waits_settle
    (h : conn.machine.pending ≠ [] → conn.machine.pendingOutputBytes ≠ 0) : (conn.settle set).Waits := by
  unfold settle
  split
  · exact waits_of_gone (registered_closeConn _ _)
  · split
    · exact waits_of_gone (registered_closeConn _ _)
    · have hwrite : conn.machine.pending ≠ [] → conn.machine.hasPendingOutput = true := by
        intro hpending
        exact decide_eq_true (Nat.pos_of_ne_zero (h hpending))
      unfold setInterest
      split
      · rename_i hsame
        intro _ hpending
        exact hsame.2.trans (hwrite hpending)
      · split
        · exact waits_of_gone (registered_closeConn _ _)
        · exact fun _ hpending => hwrite hpending

/-- **`finishConnEvent` leaves no event stranded** if the socket does not take all of the output. -/
theorem waits_finishConnEvent
    (h : conn.machine.state ≠ .closed → conn.machine.pending ≠ [] →
      room writes < conn.machine.pendingOutputBytes) : (conn.finishConnEvent writes set).Waits := by
  unfold finishConnEvent
  split
  · exact waits_of_gone (registered_closeConn _ _)
  · rename_i hopen
    have hflushed := flushed_flushOnce conn writes
    generalize conn.flushOnce writes = result at hflushed
    cases hflushed with
    | gone hgone => exact waits_of_gone hgone
    | @closed conn' _ hclosed =>
      unfold settle
      simp only [if_pos hclosed]
      exact waits_of_gone (registered_closeConn _ _)
    | flushed hpending hout _ =>
      refine waits_settle set fun hne => ?_
      rw [hpending] at hne
      have hroom := h hopen hne
      omega

/-! ## Executing events -/

theorem pending_bufferResponses {values : List Response}
    (h : m.bufferResponses values = (m', none)) : m'.pending = m.pending := by
  rcases bufferResponses_ok h with ⟨-, rfl⟩ | rfl
  · rfl
  · exact m.pending_compactWriteBuf

theorem processNext_pending {quote : Bytes → Bytes} {run : ConnCommandRunner}
    {more : Bool} (h : m.processNext quote run = (m', .ok more)) :
    m'.pending = m.pending.tail ∧ more = !m'.pending.isEmpty := by
  have hprocesses := processes_processNext quote m run
  rw [h] at hprocesses
  generalize hresult : (m', Except.ok more) = result at hprocesses
  cases hprocesses with
  | closed => cases (Prod.mk.inj hresult).2
  | failed => cases (Prod.mk.inj hresult).2
  | idle hstate hpending =>
    obtain ⟨rfl, hmore⟩ := Prod.mk.inj hresult
    cases hmore
    rw [hpending]
    exact ⟨rfl, rfl⟩
  | done hstate hpending hresponses hbuffer =>
    obtain ⟨rfl, hmore⟩ := Prod.mk.inj hresult
    rw [pending_bufferResponses hbuffer, hpending] at *
    exact ⟨rfl, Except.ok.inj hmore⟩

/-- **Where the loop of `processConn` stops**: the connection is gone, or its machine is closed, or no
event is left, or the socket will not take all of the output. -/
inductive Paused : EventConn × List SysWrite × Bool → Prop
  | gone {conn : EventConn} {writes : List SysWrite} (h : conn.registered = false) :
    Paused (conn, writes, false)
  | closed {conn : EventConn} {writes : List SysWrite} (h : conn.machine.state = .closed) :
    Paused (conn, writes, true)
  | done {conn : EventConn} {writes : List SysWrite} (h : conn.machine.pending = []) :
    Paused (conn, writes, true)
  | full {conn : EventConn} {writes : List SysWrite}
    (h : room writes < conn.machine.pendingOutputBytes) : Paused (conn, writes, true)

/-- The flush above the high-water mark. -/
inductive Drained (conn : EventConn) : EventConn × List SysWrite × Pause → Prop
  | gone {conn' : EventConn} {left : List SysWrite} (h : conn'.registered = false) :
    Drained conn (conn', left, .gone)
  | wait {conn' : EventConn} {left : List SysWrite} (h : Paused (conn', left, true)) :
    Drained conn (conn', left, .wait)
  | proceed {conn' : EventConn} {left : List SysWrite}
    (h : conn'.machine.state ≠ .closed →
      StaysFull left ∧ conn'.machine.pending = conn.machine.pending) :
    Drained conn (conn', left, .proceed)

theorem drained_drain (conn : EventConn) (hfull : StaysFull writes) :
    Drained conn (conn.drain writes) := by
  unfold drain
  split
  · have hflushed := flushed_flushOnce conn writes
    generalize conn.flushOnce writes = result at hflushed
    cases hflushed with
    | gone hgone => exact .gone hgone
    | closed hclosed =>
      simp only
      split
      · exact .wait (.closed hclosed)
      · exact .proceed fun hopen => absurd hclosed hopen
    | flushed hpending hout hblocked =>
      have hstays := hfull.fdWrite conn.machine.output
      simp only
      split
      · rename_i hmark
        -- the write blocked, and the socket stays full
        have hroom := hstays.2 (hblocked (Nat.ne_zero_of_lt hmark))
        refine .wait (.full ?_)
        rw [hroom]
        exact Nat.zero_lt_of_lt hmark
      · exact .proceed fun _ => ⟨hstays.1, hpending⟩
  · exact .proceed fun _ => ⟨hfull, rfl⟩

theorem processNext_open {quote : Bytes → Bytes} {run : ConnCommandRunner}
    {more : Bool} (h : m.processNext quote run = (m', .ok more)) : m.state ≠ .closed := by
  intro hclosed
  unfold ConnMachine.processNext at h
  rw [if_pos hclosed] at h
  cases (Prod.mk.inj h).2

/-- **The loop of `processConn`** strands no event if the socket stays full once it is. -/
theorem paused_processLoop {fuel : Nat} (runs : Nat → ConnCommandRunner) (hfull : StaysFull writes)
    (hfuel : conn.machine.pending.length < fuel) : Paused (processLoop quote fuel runs conn writes) := by
  induction fuel generalizing runs conn writes with
  | zero => exact absurd hfuel (Nat.not_lt_zero _)
  | succ fuel ih =>
    unfold processLoop
    split
    · exact .closed ‹_›
    · have hdrained := conn.drained_drain hfull
      generalize conn.drain writes = result at hdrained
      cases hdrained with
      | gone hgone => exact .gone hgone
      | wait hwait => exact hwait
      | @proceed conn' left hproceed =>
        simp only
        split
        · exact .gone (registered_closeConn _ _)
        · rename_i machine hnext
          obtain ⟨-, hmore⟩ := processNext_pending hnext
          have hdone : machine.pending = [] := by simpa using hmore.symm
          exact .done hdone
        · rename_i machine hnext
          obtain ⟨hpending, hmore⟩ := processNext_pending hnext
          obtain ⟨hfull', hsame⟩ := hproceed (processNext_open hnext)
          have hne : machine.pending ≠ [] := by
            intro hnil
            rw [hnil] at hmore
            cases hmore
          have htail : machine.pending.length < fuel := by
            have hpos := length_pos_iff.mpr hne
            rw [hpending, hsame, length_tail] at hpos ⊢
            omega
          exact ih _ hfull' htail

theorem waits_processConn (conn : EventConn) {env : Environment}
    (hfull : StaysFull env.writes) : (conn.processConn quote env).Waits := by
  have hpaused := paused_processLoop quote env.runs hfull (Nat.lt_succ_self conn.machine.pending.length)
  unfold processConn
  generalize processLoop quote (conn.machine.pending.length + 1) env.runs conn env.writes = result
    at hpaused
  cases hpaused with
  | gone hgone => exact waits_of_gone hgone
  | closed hclosed => exact waits_finishConnEvent _ fun hopen => absurd hclosed hopen
  | done hdone => exact waits_finishConnEvent _ fun _ hne => absurd hdone hne
  | full hroom => exact waits_finishConnEvent _ fun _ _ => hroom

theorem registered_readLoop {calls : List SysRead} {budget : Nat} {conn' : EventConn}
    (h : readLoop calls budget conn = (conn', false)) : conn'.registered = false := by
  induction calls generalizing budget conn with
  | nil => cases h
  | cons call calls ih =>
    unfold readLoop at h
    split at h
    · cases h
    · cases call with
      | read data =>
        simp only at h
        split at h
        · cases h
        · split at h
          · rw [← (Prod.mk.inj h).1]
            exact registered_closeConn _ _
          · split at h
            · cases h
            · exact ih h
      | interrupted => exact ih h
      | wouldBlock => cases h
      | failed text =>
        rw [← (Prod.mk.inj h).1]
        exact registered_closeConn _ _

/-! ## Pushed bytes -/

/-- The delivery of pushed bytes to a connection with events strands none of them, if the socket does
not take all of the output with the pushed bytes. -/
theorem waits_deliverPush {conn : EventConn} (hwaits : conn.Waits) {env : Environment}
    (hroom : conn.machine.pending ≠ [] → conn.pushBuf ≠ [] →
      room env.writes < conn.machine.pendingOutputBytes + conn.pushBuf.length) :
    (conn.deliverPush env).Waits := by
  unfold deliverPush
  split
  · split
    · exact hwaits
    · rename_i hpush
      simp only
      split
      · rcases conn.machine.bufferEncoded_cases conn.pushBuf with hcase | ⟨hnil, hcase⟩ | ⟨err, hcase⟩
        · rw [hcase]
          refine waits_finishConnEvent env.set fun _ hpending => ?_
          have hne : conn.machine.pending ≠ [] := by simpa [appended, become] using hpending
          have hpushed := hroom hne fun hnil => hpush (.inr hnil)
          change _ < (conn.machine.appended conn.pushBuf).pendingOutputBytes
          rw [← length_output, output_appended, length_append, length_output]
          exact hpushed
        · exact absurd (.inr hnil) hpush
        · rw [hcase]
          exact waits_of_gone (registered_closeConn _ _)
      · exact hwaits
  · exact hwaits

/-! ## A stranded event -/

/-- `k` requests are parsed and not executed, and a reply waits to be written. -/
def holding (k : Nat) (reply : Bytes) : ConnMachine :=
  { ConnMachine.new defaultMaxReadBuffer defaultMaxWriteBuffer with
    pending := List.replicate k (.request .null), writeBuf := reply }

theorem feed_holding (k j : Nat) (reply : Bytes) {data : Bytes}
    (hdrains : Drains decode data (List.replicate j .null) [] (.incomplete none)) :
    (holding k reply).feed data = (holding (k + j) reply, none) := by
  have hresume : ¬(0 < (holding k reply).resumeAt ∧
      ((holding k reply).readBuf ++ data).length < (holding k reply).resumeAt) := by
    rintro ⟨hpos, -⟩
    exact absurd hpos (Nat.lt_irrefl 0)
  have hpending : List.replicate k (ConnEvent.request .null) ++
      (List.replicate j Value.null).map .request = List.replicate (k + j) (.request .null) := by
    rw [map_replicate, replicate_append_replicate]
  have hfeed := (feed_eq rfl hresume hdrains).2 none rfl
  refine Prod.ext (hfeed.trans ?_) (feed_err rfl _)
  rw [checkReadBuffer, if_neg]
  · exact congrArg (fun pending => { holding k reply with pending := pending }) hpending
  · rintro (hlt | hlt) <;> exact absurd hlt (Nat.not_lt_zero _)

section Flood

variable (quote : Bytes → Bytes) {k : Nat}

variable {reply : Bytes}

theorem processNext_holding {value : Value}
    (h : (reply ++ value.encode).length ≤ defaultMaxWriteBuffer) :
    (holding (k + 1) reply).processNext quote (fun _ => .ok [some value]) =
      (holding k (reply ++ value.encode), .ok !(List.replicate k (ConnEvent.request .null)).isEmpty) := by
  exact processNext_done (fun hclosed => by cases hclosed) rfl rfl (bufferResponses_one rfl h)

/-- Two requests arrive.  The first is answered with a reply above the high-water mark; the socket is
full at first, and takes all of it a moment later. -/
def flood (reply : Value) : Environment where
  reads := [.read (ascii "_\r\n_\r\n")]
  writes := [.wouldBlock, .wrote (eventLoopOutputHighWater + 3)]
  runs _ _ := .ok [some reply]

/-- `k` requests are parsed and not executed, nothing is left to write, and the loop waits for input
only. -/
structure Stranded (k : Nat) (conn : EventConn) : Prop where
  machine : conn.machine = holding k []
  registered : conn.registered = true
  peerClosed : conn.peerClosed = false
  wantRead : conn.wantRead = true
  wantWrite : conn.wantWrite = false

variable {conn : EventConn}

theorem readLoop_flood (reply : Value) (h : conn.machine = holding k []) :
    readLoop (flood reply).reads eventLoopReadBudget conn =
      (conn.become (holding (k + 2) []), true) := by
  have hdrains : Drains decode (ascii "_\r\n_\r\n") (List.replicate 2 .null) [] (.incomplete none) :=
    .value rfl (.value rfl (.stop rfl))
  exact readLoop_short (by decide) (by decide) (by rw [h]; rfl)
    (by rw [h]; exact feed_holding k 2 [] hdrains)

theorem flushOnce_holding_free (conn : EventConn) (hreply : reply ≠ [])
    (h : conn.machine = holding k reply) :
    conn.flushOnce [.wrote reply.length] = (conn.become (holding k []), [], true) := by
  have houtput : (holding k reply).output = reply := rfl
  have hwrite : fdWrite [.wrote reply.length] reply = (⟨reply.length, none⟩, []) := by
    obtain ⟨b, p, rfl⟩ := exists_cons_of_ne_nil hreply
    simp only [fdWrite, drop_length, min_self, Nat.add_zero]
  have hflush : (holding k reply).flush (fun p => (fdWrite [.wrote reply.length] p).1) =
      (holding k [], reply, none) := by
    refine flush_all rfl (length_pos_iff.mpr hreply) ?_
    rw [houtput, hwrite]
  unfold flushOnce
  rw [h, hflush, houtput, hwrite]

theorem open_holding {k : Nat} : (holding k reply).state ≠ .closed :=
  fun hclosed => by cases hclosed

theorem processLoop_flood (conn : EventConn) {reply : Value}
    (hreply : reply.encode.length = eventLoopOutputHighWater + 3)
    (h : conn.machine = holding (k + 2) []) :
    processLoop quote (k + 3) (flood reply).runs conn (flood reply).writes =
      ((conn.become (holding (k + 1) reply.encode)).become (holding (k + 1) reply.encode),
        [.wrote (eventLoopOutputHighWater + 3)], true) := by
  have hne : reply.encode ≠ [] := length_pos_iff.mp (by rw [hreply]; exact Nat.zero_lt_succ _)
  have hfull : fdWrite (flood reply).writes reply.encode =
      (⟨0, some .wouldBlock⟩, [.wrote (eventLoopOutputHighWater + 3)]) := by
    obtain ⟨b, p, hcons⟩ := exists_cons_of_ne_nil hne
    rw [hcons]
    rfl
  have hmark : eventLoopOutputHighWater < (holding (k + 1) reply.encode).pendingOutputBytes := by
    change eventLoopOutputHighWater < reply.encode.length - 0
    omega
  have hnext : conn.machine.processNext quote ((flood reply).runs 0) =
      (holding (k + 1) reply.encode, .ok true) := by
    rw [h]
    exact processNext_holding quote (by rw [nil_append, hreply]; decide)
  have hwait : (conn.become (holding (k + 1) reply.encode)).drain (flood reply).writes =
      ((conn.become (holding (k + 1) reply.encode)).become (holding (k + 1) reply.encode),
        [.wrote (eventLoopOutputHighWater + 3)], .wait) :=
    drain_wait hmark (flushOnce_full _ open_holding (length_pos_iff.mpr hne) hfull) hmark
  have hdrain : conn.drain (flood reply).writes = (conn, (flood reply).writes, .proceed) :=
    drain_below (by rw [h]; exact Nat.zero_le _)
  rw [processLoop_more (by rw [h]; exact open_holding) hdrain hnext, processLoop_wait open_holding hwait]

/-- **One more request is stranded** at every such event. -/
theorem Stranded.step {reply : Value} (hreply : reply.encode.length = eventLoopOutputHighWater + 3)
    (h : Stranded k conn) : Stranded (k + 1) (conn.step quote (.readable (flood reply))) := by
  have hne : reply.encode ≠ [] := length_pos_iff.mp (by rw [hreply]; exact Nat.zero_lt_succ _)
  have hout : conn.machine.pendingOutputBytes ≤ eventLoopOutputHighWater := by
    rw [h.machine]
    exact Nat.zero_le _
  have hlength : (conn.become (holding (k + 2) [])).machine.pending.length + 1 = k + 3 := by
    change (List.replicate (k + 2) _).length + 1 = k + 3
    rw [length_replicate]
  have hloop := processLoop_flood quote (conn.become (holding (k + 2) [])) hreply rfl
  rw [← hlength] at hloop
  have hflush := flushOnce_holding_free
    (((conn.become (holding (k + 2) [])).become (holding (k + 1) reply.encode)).become
      (holding (k + 1) reply.encode)) hne rfl
  rw [hreply] at hflush
  have hconn : conn.step quote (.readable (flood reply)) = conn.connReadable quote (flood reply) :=
    if_pos h.registered
  rw [hconn, connReadable_eq hout (readLoop_flood reply h.machine), processConn_eq hloop,
    finishConnEvent_eq _ open_holding hflush,
    settle_calm ((((conn.become (holding (k + 2) [])).become (holding (k + 1) reply.encode)).become
      (holding (k + 1) reply.encode)).become (holding (k + 1) []))
      _ open_holding rfl h.peerClosed h.wantRead h.wantWrite]
  exact ⟨rfl, h.registered, h.peerClosed, h.wantRead, h.wantWrite⟩

end Flood

/-- A reply of this many bytes and its frame. -/
def replyOf (n : Nat) : Value :=
  .simpleString (List.replicate n 120)

theorem length_replyOf (n : Nat) : (replyOf n).encode.length = n + 3 := by
  simp [replyOf, Value.encode, appendPrefixedStringLine, crlf]

theorem stranded_registerConn :
    Stranded 0 (registerConn defaultMaxReadBuffer defaultMaxWriteBuffer) :=
  ⟨rfl, rfl, rfl, rfl, rfl⟩

/-! ## Runs -/

/-- The condition: during a step the socket stays full once it is full, and pushed bytes for a
connection with events meet a socket that does not take all there is to write. -/
def MeetsFullSocket (conn : EventConn) : Step → Prop
  | .queuePush _ => True
  | .requestClose => True
  | .applyQueuedWork env => conn.machine.pending ≠ [] → conn.pushBuf ≠ [] →
    room env.writes < conn.machine.pendingOutputBytes + conn.pushBuf.length
  | .readable env => StaysFull env.writes
  | .writable env => StaysFull env.writes

theorem Waits.requestClose (hwaits : conn.Waits) : conn.requestClose.Waits := by
  unfold EventConn.requestClose
  split <;> exact hwaits

theorem Waits.queuePush (hwaits : conn.Waits) (payload : Bytes) :
    (conn.queuePush payload).Waits := by
  unfold EventConn.queuePush
  split
  · exact hwaits
  · split
    · exact hwaits.requestClose
    · exact hwaits

theorem Waits.step (quote : Bytes → Bytes) (hwaits : conn.Waits) {i : Step}
    (hi : conn.MeetsFullSocket i) : (conn.step quote i).Waits := by
  cases i with
  | queuePush payload => exact hwaits.queuePush payload
  | requestClose => exact hwaits.requestClose
  | applyQueuedWork env =>
    have hdeliver : ({ conn with closeQueued := false }.deliverPush env).Waits :=
      @waits_deliverPush { conn with closeQueued := false } hwaits env hi
    unfold EventConn.step applyQueuedWork
    simp only
    split
    · exact waits_of_gone (registered_closeConn _ _)
    · exact hdeliver
  | readable env =>
    unfold EventConn.step
    simp only
    split
    · unfold connReadable
      split
      · split
        · exact waits_of_gone (registered_readLoop ‹_›)
        · exact waits_processConn quote _ hi
      · exact waits_processConn quote _ hi
    · exact hwaits
  | writable env =>
    unfold EventConn.step
    simp only
    split
    · exact waits_processConn quote conn hi
    · exact hwaits

/-- **No event is stranded** in a run that keeps to the condition: in every state between steps, a
registered connection with events that are not executed waits for its socket to become writable. -/
theorem never_stranded (quote : Bytes → Bytes) (maxReadBuffer maxWriteBuffer : Nat)
    (steps : List Step)
    (h : Machine.Heeds (next quote) MeetsFullSocket steps (registerConn maxReadBuffer maxWriteBuffer)) :
    Machine.Always (next quote) Waits steps (registerConn maxReadBuffer maxWriteBuffer) := by
  refine Machine.always_of_heeds ?_ ?_ h
  · intro conn i conn' hwaits hi hstep
    cases hstep
    exact hwaits.step quote hi
  · intro _ hpending
    exact absurd rfl hpending

/-- The loop pauses before a full socket, and waits for it. -/
theorem never_stranded_paused :
    Machine.Always (next id) Waits
      [.readable { flood (replyOf eventLoopOutputHighWater) with writes := [.wouldBlock] }, .writable {}]
      (registerConn defaultMaxReadBuffer defaultMaxWriteBuffer) := by
  refine never_stranded id _ _ _ fun conn _ => ⟨?_, fun conn' _ => ⟨trivial, trivial⟩⟩
  exact fun _ => not_mem_nil

/-- **An event is stranded**: the socket is full when the loop pauses and free when it finishes. -/
theorem paused_connection_sleeps :
    ¬Machine.Always (next id) Waits [.readable (flood (replyOf eventLoopOutputHighWater))]
      (registerConn defaultMaxReadBuffer defaultMaxWriteBuffer) := by
  intro hwaits
  have hstranded := stranded_registerConn.step id (length_replyOf _)
  have hwrite := hwaits.last rfl hstranded.registered
  rw [hstranded.machine, hstranded.wantWrite] at hwrite
  exact absurd (hwrite (cons_ne_nil _ _)) Bool.false_ne_true

end EventConn

end Stash
