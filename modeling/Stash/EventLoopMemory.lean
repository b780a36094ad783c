import Stash.EventLoopInterest
import Stash.RequestSizes

/-!
# Memory of a connection

The loop stops reading and executing while the pending output is above the high-water mark.  That
bounds the output of a connection: an event is executed only at or below the mark, so the output is at
most the mark and one more reply (`response_memory_bounded`).  The reply may be that to a protocol
error, which quotes the input and can be larger than any response of a command.

The requests that are parsed and not executed are not bounded by it.  Reading depends on the pending
output alone, and the output may be gone while requests are left, because the loop flushes once more
after it has paused; then it reads more, whatever is left (`backlog_unbounded`).  Where it reads only
after all requests are executed, one step's reads bound the backlog (`backlog_bounded`).
-/

namespace Stash

open DecimalText Incremental List Machine

/-- The encoded size of a request. -/
def ConnEvent.size : ConnEvent → Nat
  | .request value => value.encodedLen
  | .protoErr _ => 0

/-- The encoded size of the requests among the events. -/
def requestBytes (events : List ConnEvent) : Nat :=
  (events.map ConnEvent.size).sum

theorem requestBytes_append (xs ys : List ConnEvent) :
    requestBytes (xs ++ ys) = requestBytes xs + requestBytes ys := by
  simp [requestBytes]

theorem requestBytes_map (values : List Value) :
    requestBytes (values.map .request) = Value.encodedLenAll values := by
  induction values with
  | nil => rfl
  | cons value values ih => exact congrArg (value.encodedLen + ·) ih

namespace EventConn

open ConnMachine

/-! ## The read buffer -/

/-- The read buffer is within its limit, and so is the number of bytes waited for. -/
structure ReadsWithin (limit : Nat) (m : ConnMachine) : Prop where
  limited : m.maxReadBuffer = limit
  readBuf : m.readBuf.length ≤ limit
  resumeAt : m.resumeAt ≤ limit

variable {m : ConnMachine} {limit : Nat} {conn : EventConn}

theorem ReadsWithin.feed (h : ReadsWithin limit m) (data : Bytes) :
    ReadsWithin limit (m.feed data).1 := by
  have hfeeds := feeds_feed m data
  generalize (m.feed data).1 = m' at hfeeds
  cases hfeeds with
  | rejected _ => exact h
  | waits _ hshort => exact ⟨h.limited, (hshort.trans_le h.resumeAt).le, h.resumeAt⟩
  | decoded _ _ hrest hneed =>
    rw [h.limited] at hrest hneed
    exact ⟨h.limited, hrest, hneed⟩
  | refused _ _ => exact ⟨h.limited, Nat.zero_le _, Nat.zero_le _⟩

theorem requestBytes_feed (m : ConnMachine) (data : Bytes) :
    requestBytes (m.feed data).1.pending + (m.feed data).1.readBuf.length ≤
      requestBytes m.pending + m.readBuf.length + data.length := by
  have hfeeds := feeds_feed m data
  generalize (m.feed data).1 = m' at hfeeds
  cases hfeeds with
  | rejected _ => omega
  | waits _ _ =>
    simp only [length_append]
    omega
  | decoded _ drains _ _ =>
    have hle := encodedLenAll_drains drains
    rw [length_append] at hle
    simp only [requestBytes_append, requestBytes_map]
    omega
  | refused _ drains =>
    have hle := encodedLenAll_drains drains
    rw [length_append] at hle
    simp only [enterProtocolError, requestBytes_append, requestBytes_map]
    simp only [requestBytes, ConnEvent.size, map_cons, map_nil, sum_cons, sum_nil,
      length_nil]
    omega

/-! ## Properties that do not look at the output -/

variable (quote : Bytes → Bytes)

/-- A property that stays when events are executed and the output changes is kept by the loop. -/
theorem keeps_of_frame {P : ConnMachine → Prop}
    (hclose : ∀ {m : ConnMachine} (err : Option ConnError), P m → P (m.close err))
    (hframe : ∀ {m : ConnMachine} {pending : List ConnEvent} (writeBuf : Bytes) (writeOff : Nat),
      pending <:+ m.pending → P m →
        P { m with pending := pending, writeBuf := writeBuf, writeOff := writeOff }) :
    Keeps quote (fun _ => True) P where
  close := hclose
  flush {m} w h := by
    have hfinish : ∀ {m : ConnMachine}, P m → P m.finishClosing := by
      intro m h
      rcases m.finishClosing_cases with hcase | ⟨-, -, -, hcase⟩
      · rwa [hcase]
      · rw [hcase]
        exact hclose none h
    have hwritten : ∀ n, P (m.written n) := by
      intro n
      obtain ⟨writeBuf, writeOff, hcase⟩ := m.written_frame n
      rw [hcase]
      exact hframe writeBuf writeOff suffix_rfl h
    have hflushes := flushes_flush m w
    generalize m.flush w = result at hflushes
    cases hflushes with
    | closed _ => exact h
    | idle _ _ => exact hfinish h
    | written _ _ _ => exact hfinish (hwritten _)
    | failed _ _ _ => exact hwritten _
  processNext {m run} _ h _ := by
    have hprocesses := processes_processNext quote m run
    generalize m.processNext quote run = result at hprocesses
    cases hprocesses with
    | closed _ => exact h
    | idle _ _ => exact h
    | failed _ hpending =>
      refine hclose _ (hframe _ _ ?_ h)
      rw [hpending]
      exact suffix_cons _ _
    | @done event pending responses m' _ hpending _ hbuffer =>
      obtain ⟨writeBuf, writeOff, hcase⟩ := bufferResponses_frame { m with pending := pending } responses
      rw [hbuffer] at hcase
      simp only at hcase
      rw [hcase]
      refine hframe writeBuf writeOff ?_ h
      rw [hpending]
      exact suffix_cons _ _

theorem ReadsWithin.close (h : ReadsWithin limit m)
    (err : Option ConnError) : ReadsWithin limit (m.close err) := by
  unfold ConnMachine.close
  split
  · exact h
  · exact ⟨h.limited, Nat.zero_le _, Nat.zero_le _⟩

/-! ## The backlog -/

/-- What one step may parse: what was left in the read buffer, and what it reads. -/
def backlogBound (maxReadBuffer : Nat) : Nat :=
  maxReadBuffer + (eventLoopReadBudget + eventLoopReadChunk)

/-- The backlog is within the bound. -/
structure BacklogWithin (limit : Nat) (m : ConnMachine) : Prop where
  reads : ReadsWithin limit m
  requests : requestBytes m.pending ≤ backlogBound limit

theorem BacklogWithin.close (h : BacklogWithin limit m)
    (err : Option ConnError) : BacklogWithin limit (m.close err) := by
  refine ⟨h.reads.close err, ?_⟩
  unfold ConnMachine.close
  split
  · exact h.requests
  · exact Nat.zero_le _

theorem requestBytes_suffix {xs ys : List ConnEvent} (h : xs <:+ ys) :
    requestBytes xs ≤ requestBytes ys := by
  obtain ⟨front, rfl⟩ := h
  rw [requestBytes_append]
  exact Nat.le_add_left _ _

theorem BacklogWithin.frame (h : BacklogWithin limit m)
    {pending : List ConnEvent} (hsuffix : pending <:+ m.pending) (writeBuf : Bytes) (writeOff : Nat) :
    BacklogWithin limit { m with pending := pending, writeBuf := writeBuf, writeOff := writeOff } :=
  ⟨⟨h.reads.limited, h.reads.readBuf, h.reads.resumeAt⟩,
    (requestBytes_suffix hsuffix).trans h.requests⟩

theorem keeps_backlogWithin (limit : Nat) : Keeps quote (fun _ => True) (BacklogWithin limit) :=
  keeps_of_frame quote (fun err h => h.close err) fun writeBuf writeOff hsuffix h =>
    h.frame hsuffix writeBuf writeOff

theorem backlogWithin_readLoop (h : Throughout (BacklogWithin limit) conn)
    (hserved : conn.machine.pending = []) (calls : List SysRead) :
    Throughout (BacklogWithin limit) (readLoop calls eventLoopReadBudget conn).1 := by
  refine @throughout_readLoop (fun k m => ReadsWithin limit m ∧
    requestBytes m.pending + m.readBuf.length ≤ k) _ (backlogBound limit)
    (fun err hm => hm.close err) ?_ ?_ ?_ calls eventLoopReadBudget limit conn ?_ ?_ h
  · intro k m data hm
    exact ⟨hm.1.feed data, (requestBytes_feed m data).trans (Nat.add_le_add_right hm.2 _)⟩
  · intro k k' m hle hm
    exact ⟨hm.1, hm.2.trans hle⟩
  · intro m hm
    exact ⟨hm.1, le_trans (Nat.le_add_right _ _) hm.2⟩
  · exact le_refl _
  · refine ⟨h.now.reads, ?_⟩
    rw [hserved]
    simpa [requestBytes] using h.now.reads.readBuf

/-- The condition: more is read only after all parsed requests are executed. -/
def ReadsWhenServed (conn : EventConn) : Step → Prop
  | .readable _ => conn.machine.pending = [] ∨
    eventLoopOutputHighWater < conn.machine.pendingOutputBytes
  | _ => True

theorem backlogWithin_step
    (h : Throughout (BacklogWithin limit) conn) {i : Step} (hi : conn.ReadsWhenServed i) :
    Throughout (BacklogWithin limit) (conn.step quote i) := by
  have hkeeps := keeps_backlogWithin quote limit
  cases i with
  | queuePush payload => exact h.queuePush payload
  | requestClose => exact h.requestClose
  | applyQueuedWork env =>
    refine hkeeps.applyQueuedWork h env fun _ => ?_
    rcases conn.machine.bufferEncoded_cases conn.pushBuf with hcase | ⟨-, hcase⟩ | ⟨err, hcase⟩
    · obtain ⟨writeBuf, writeOff, hframe⟩ := conn.machine.appended_frame conn.pushBuf
      rw [hcase, hframe]
      exact h.now.frame suffix_rfl writeBuf writeOff
    · rw [hcase]
      exact h.now
    · rw [hcase]
      exact h.now
  | readable env =>
    unfold EventConn.step connReadable
    simp only
    split
    · split
      · rename_i hmark
        have hserved : conn.machine.pending = [] := hi.resolve_right (not_lt.mpr hmark)
        have hread := backlogWithin_readLoop h hserved env.reads
        split
        · rename_i heq
          rwa [heq] at hread
        · rename_i heq
          rw [heq] at hread
          exact hkeeps.processConn hread fun _ => trivial
      · exact hkeeps.processConn h fun _ => trivial
    · exact h
  | writable env =>
    unfold EventConn.step
    simp only
    split
    · exact hkeeps.processConn h fun _ => trivial
    · exact h

/-- **The backlog is bounded** in a run that reads only after all parsed requests are executed: by the
read buffer and what one step may read, in every state the machine is in. -/
theorem backlog_bounded (quote : Bytes → Bytes) (limit maxWriteBuffer : Nat) (steps : List Step)
    (h : Machine.Heeds (next quote) ReadsWhenServed steps (registerConn limit maxWriteBuffer)) :
    Machine.Always (next quote)
      (Throughout fun m => requestBytes m.pending ≤ backlogBound limit) steps
      (registerConn limit maxWriteBuffer) := by
  have hinv : Machine.Always (next quote) (Throughout (BacklogWithin limit)) steps
      (registerConn limit maxWriteBuffer) := by
    refine always_of_heeds ?_ ?_ h
    · intro conn i conn' hconn hi hstep
      cases hstep
      exact backlogWithin_step quote hconn hi
    · exact ⟨⟨⟨rfl, Nat.zero_le _, Nat.zero_le _⟩, Nat.zero_le _⟩, fun _ hmem => by cases hmem⟩
  exact hinv.mono fun conn hconn => hconn.mono fun m hm => hm.requests

/-- A step that reads two requests and executes both, and one that reads more. -/
theorem backlog_bounded_served :
    Machine.Always (next id) (Throughout fun m => requestBytes m.pending ≤ backlogBound 512)
      [.readable { reads := [.read (ascii "_\r\n_\r\n")] }, .readable { reads := [.read (ascii ":1\r\n")] }]
      (registerConn 512 512) := by
  refine backlog_bounded id 512 512 _ fun conn hconn => ⟨.inl rfl, fun conn' _ => ⟨.inl ?_, trivial⟩⟩
  cases hconn
  rfl

theorem Stranded.run {reply : Value}
    (hreply : reply.encode.length = eventLoopOutputHighWater + 3) (n : Nat) {k : Nat}
    {conn : EventConn} (h : Stranded k conn) :
    ∃ conn', run (next quote) (List.replicate n (.readable (flood reply))) conn = some conn' ∧
      Stranded (k + n) conn' := by
  induction n generalizing k conn with
  | zero => exact ⟨conn, rfl, h⟩
  | succ n ih =>
    obtain ⟨conn', hrun, hconn'⟩ := ih (h.step quote hreply)
    refine ⟨conn', hrun, ?_⟩
    rwa [show k + (n + 1) = k + 1 + n by omega]

theorem requestBytes_replicate (n : Nat) :
    requestBytes (List.replicate n (.request .null)) = n * 3 := by
  simp [requestBytes, ConnEvent.size, Value.encodedLen]

/-- **The backlog has no bound**: the loop pauses before a full socket, finds it free when it finishes,
and goes on to read. -/
theorem backlog_unbounded :
    ¬∃ bound, ∀ steps, Machine.Always (next id)
      (fun conn => requestBytes conn.machine.pending ≤ bound) steps
      (registerConn defaultMaxReadBuffer defaultMaxWriteBuffer) := by
  rintro ⟨bound, hbound⟩
  obtain ⟨conn, hrun, hconn⟩ := stranded_registerConn.run id (length_replyOf _) (bound + 1)
  have hle := (hbound _).last hrun
  rw [hconn.machine] at hle
  change requestBytes (List.replicate (0 + (bound + 1)) _) ≤ bound at hle
  rw [requestBytes_replicate] at hle
  omega

/-! ## The output -/

/-- The size of the reply to the protocol error that ended the input; 0 if there was none. -/
def protoReplyBytes (quote : Bytes → Bytes) (m : ConnMachine) : Nat :=
  match m.err with
  | some (.proto err) => (protoReply quote err).encode.length
  | _ => 0

/-- The largest reply to one event. -/
def replyBound (quote : Bytes → Bytes) (r : Nat) (m : ConnMachine) : Nat :=
  max r (protoReplyBytes quote m)

/-- A runner whose responses to one request take at most `r` bytes. -/
def RespondsWithin (r : Nat) (run : ConnCommandRunner) : Prop :=
  ∀ value responses, run value = .ok responses → (encodings responses).length ≤ r

/-- The output is within its bounds, and the error of a machine is the one whose reply is pending. -/
structure OutputWithin (quote : Bytes → Bytes) (r : Nat) (m : ConnMachine) : Prop where
  output : m.pendingOutputBytes ≤ eventLoopOutputHighWater + replyBound quote r m
  writeBuf : m.writeBuf.length ≤ 2 * eventLoopOutputHighWater + replyBound quote r m
  recorded : ∀ err, .protoErr err ∈ m.pending → m.err = some (.proto err)
  active : m.state = .active → m.err = none

section Output

variable {quote : Bytes → Bytes} {r : Nat} {m : ConnMachine}

section

variable (h : OutputWithin quote r m)
include h

theorem OutputWithin.close (err : Option ConnError) : OutputWithin quote r (m.close err) := by
  unfold ConnMachine.close
  split
  · exact h
  · refine ⟨Nat.zero_le _, Nat.zero_le _, fun _ hmem => ?_, fun hactive => ?_⟩
    · cases hmem
    · cases hactive

theorem OutputWithin.feed (data : Bytes) : OutputWithin quote r (m.feed data).1 := by
  -- requests are no protocol errors
  have hrequests : ∀ {values : List Value} {err : ProtoError},
      .protoErr err ∈ m.pending ++ values.map ConnEvent.request → .protoErr err ∈ m.pending := by
    intro values err hmem
    rcases mem_append.mp hmem with hmem | hmem
    · exact hmem
    · obtain ⟨value, -, hvalue⟩ := mem_map.mp hmem
      cases hvalue
  have hfeeds := feeds_feed m data
  generalize (m.feed data).1 = m' at hfeeds
  cases hfeeds with
  | rejected _ => exact h
  | waits _ _ => exact ⟨h.output, h.writeBuf, h.recorded, h.active⟩
  | decoded _ _ _ _ => exact ⟨h.output, h.writeBuf, fun err hmem => h.recorded err (hrequests hmem), h.active⟩
  | @refused values rest readBuf err resumeAt proto hstate _ =>
    have hnone := h.active hstate
    have hreply : replyBound quote r m ≤ max r (protoReply quote proto).encode.length := by
      unfold replyBound protoReplyBytes
      rw [hnone]
      exact max_le (le_max_left _ _) (Nat.zero_le _)
    refine ⟨h.output.trans (Nat.add_le_add_left hreply _), h.writeBuf.trans (Nat.add_le_add_left hreply _),
      fun err hmem => ?_, fun hactive => ?_⟩
    · rcases mem_append.mp hmem with hmem | hmem
      · have hrecorded := h.recorded err (hrequests hmem)
        rw [hnone] at hrecorded
        cases hrecorded
      · cases mem_singleton.mp hmem
        rfl
    · cases hactive

theorem OutputWithin.written (n : Nat) : OutputWithin quote r (m.written n) := by
  have houtput : (m.written n).pendingOutputBytes ≤ m.pendingOutputBytes ∧
      (m.written n).writeBuf.length ≤ m.writeBuf.length := by
    unfold ConnMachine.written pendingOutputBytes
    split
    · exact ⟨Nat.zero_le _, Nat.zero_le _⟩
    · exact ⟨by simp only; omega, le_refl _⟩
  obtain ⟨writeBuf, writeOff, hframe⟩ := m.written_frame n
  rw [hframe] at houtput ⊢
  exact ⟨houtput.1.trans h.output, houtput.2.trans h.writeBuf, h.recorded, h.active⟩

theorem OutputWithin.finishClosing : OutputWithin quote r m.finishClosing := by
  rcases m.finishClosing_cases with hcase | ⟨-, -, -, hcase⟩
  · rwa [hcase]
  · rw [hcase]
    exact h.close none

theorem OutputWithin.flush (w : Bytes → WriteAnswer) : OutputWithin quote r (m.flush w).1 := by
  have hflushes := flushes_flush m w
  generalize m.flush w = result at hflushes
  cases hflushes with
  | closed _ => exact h
  | idle _ _ => exact h.finishClosing
  | written _ _ _ => exact (h.written _).finishClosing
  | failed _ _ _ => exact h.written _

end

theorem length_compactWriteBuf (m : ConnMachine) :
    m.compactWriteBuf.writeBuf.length ≤ 2 * m.pendingOutputBytes := by
  unfold compactWriteBuf pendingOutputBytes
  split
  · omega
  · simp only [length_drop]
    omega

section

variable (h : OutputWithin quote r m)
include h

theorem OutputWithin.appended
    (hmark : m.pendingOutputBytes ≤ eventLoopOutputHighWater) {reply : Bytes}
    (hreply : reply.length ≤ replyBound quote r m) : OutputWithin quote r (m.appended reply) := by
  have houtput : (m.appended reply).pendingOutputBytes = m.pendingOutputBytes + reply.length := by
    rw [← length_output, output_appended, length_append, length_output]
  have hbuffer : (m.appended reply).writeBuf.length ≤ 2 * m.pendingOutputBytes + reply.length := by
    change (m.compactWriteBuf.writeBuf ++ reply).length ≤ _
    rw [length_append]
    exact Nat.add_le_add_right (length_compactWriteBuf m) _
  obtain ⟨writeBuf, writeOff, hframe⟩ := m.appended_frame reply
  rw [hframe] at houtput hbuffer ⊢
  refine ⟨?_, ?_, h.recorded, h.active⟩
  · rw [houtput]
    exact Nat.add_le_add hmark hreply
  · exact hbuffer.trans (Nat.add_le_add (Nat.mul_le_mul_left 2 hmark) hreply)

theorem OutputWithin.responses {run : ConnCommandRunner}
    (hrun : RespondsWithin r run) {event : ConnEvent} (hevent : event ∈ m.pending)
    {responses : List Response} (hresponses : respond quote run event = .ok responses) :
    (encodings responses).length ≤ replyBound quote r m := by
  cases event with
  | request value => exact (hrun value responses hresponses).trans (le_max_left _ _)
  | protoErr err =>
    cases hresponses
    have hrecorded := h.recorded err hevent
    refine le_trans (le_of_eq ?_) (le_max_right _ _)
    unfold protoReplyBytes
    rw [hrecorded]
    rw [encodings_one]

/-- **An event executed at or below the mark** adds one reply. -/
theorem OutputWithin.processNext {run : ConnCommandRunner}
    (hrun : RespondsWithin r run) (hmark : m.pendingOutputBytes ≤ eventLoopOutputHighWater) :
    OutputWithin quote r (m.processNext quote run).1 := by
  have hprocesses := processes_processNext quote m run
  generalize m.processNext quote run = result at hprocesses
  cases hprocesses with
  | closed _ => exact h
  | idle _ _ => exact h
  | failed hstate _ =>
    unfold ConnMachine.close
    rw [if_neg hstate]
    refine ⟨Nat.zero_le _, Nat.zero_le _, fun _ hmem => ?_, fun hactive => ?_⟩
    · cases hmem
    · cases hactive
  | @done event pending responses m' hstate hpending hresponses hbuffer =>
    have hevent : event ∈ m.pending := by
      rw [hpending]
      exact mem_cons_self
    have hpopped : OutputWithin quote r { m with pending := pending } := by
      refine ⟨h.output, h.writeBuf, fun err hmem => h.recorded err ?_, h.active⟩
      rw [hpending]
      exact mem_cons_of_mem _ hmem
    have hreply := h.responses hrun hevent hresponses
    rcases bufferResponses_ok hbuffer with ⟨-, rfl⟩ | rfl
    · exact hpopped
    · exact hpopped.appended hmark hreply

end

end Output

/-! ## Runs without pushes -/

/-- All bounds of a machine. -/
structure MemoryWithin (quote : Bytes → Bytes) (limit r : Nat) (m : ConnMachine) : Prop where
  reads : ReadsWithin limit m
  output : OutputWithin quote r m

variable (quote : Bytes → Bytes)

theorem keeps_memoryWithin (limit r : Nat) :
    Keeps quote (RespondsWithin r) (MemoryWithin quote limit r) := by
  have hreads : Keeps quote (fun _ => True) (ReadsWithin limit) :=
    keeps_of_frame quote (fun err h => h.close err) fun _ _ _ h => ⟨h.limited, h.readBuf, h.resumeAt⟩
  constructor
  · exact fun err h => ⟨h.reads.close err, h.output.close err⟩
  · exact fun w h => ⟨hreads.flush w h.reads, h.output.flush w⟩
  · exact fun hrun h hmark =>
      ⟨hreads.processNext trivial h.reads hmark, h.output.processNext hrun hmark⟩

/-- The events of a connection that receives no pushes, with runners whose responses to one request
take at most `r` bytes. -/
def SocketEvent (r : Nat) : Step → Prop
  | .readable env => ∀ i, RespondsWithin r (env.runs i)
  | .writable env => ∀ i, RespondsWithin r (env.runs i)
  | _ => False

/-- A request arrives and is answered; the socket takes nothing. -/
def trickle (reply : Value) : Environment where
  reads := [.read (ascii "_\r\n")]
  runs _ _ := .ok [some reply]

theorem socketEvent_trickle (n : Nat) : SocketEvent (n + 3) (.readable (trickle (replyOf n))) := by
  intro _ value responses hresponses
  cases hresponses
  rw [encodings_one, length_replyOf]

theorem memoryWithin_step {r : Nat}
    (h : Throughout (MemoryWithin quote limit r) conn) {i : Step} (hi : SocketEvent r i) :
    Throughout (MemoryWithin quote limit r) (conn.step quote i) := by
  have hkeeps := keeps_memoryWithin quote limit r
  cases i with
  | queuePush payload => exact hi.elim
  | requestClose => exact hi.elim
  | applyQueuedWork env => exact hi.elim
  | readable env =>
    have hread : Throughout (MemoryWithin quote limit r)
        (readLoop env.reads eventLoopReadBudget conn).1 :=
      @throughout_readLoop (fun _ => MemoryWithin quote limit r) _ (0 + readBound eventLoopReadBudget)
        hkeeps.close (fun hm => ⟨hm.reads.feed _, hm.output.feed _⟩) (fun _ hm => hm) (fun hm => hm)
        env.reads eventLoopReadBudget 0 conn (le_refl _) h.now h
    unfold EventConn.step connReadable
    simp only
    split
    · split
      · split
        · rename_i heq
          rwa [heq] at hread
        · rename_i heq
          rw [heq] at hread
          exact hkeeps.processConn hread hi
      · exact hkeeps.processConn h hi
    · exact h
  | writable env =>
    unfold EventConn.step
    simp only
    split
    · exact hkeeps.processConn h hi
    · exact h

/-- **Response memory is bounded**, however many requests a client sends and however little it reads:
in every state of the machine, the pending output by the high-water mark and one reply, the write buffer
with its flushed part by twice the mark and one reply, and the read buffer by its limit.  A reply is a
response of at most `r` bytes or that to the protocol error. -/
theorem response_memory_bounded (quote : Bytes → Bytes) (limit maxWriteBuffer r : Nat)
    (steps : List Step) (h : ∀ i ∈ steps, SocketEvent r i) :
    Machine.Always (next quote)
      (Throughout fun m =>
        m.pendingOutputBytes ≤ eventLoopOutputHighWater + max r (protoReplyBytes quote m) ∧
        m.writeBuf.length ≤ 2 * eventLoopOutputHighWater + max r (protoReplyBytes quote m) ∧
        m.readBuf.length ≤ limit)
      steps (registerConn limit maxWriteBuffer) := by
  have hstart : Throughout (MemoryWithin quote limit r) (registerConn limit maxWriteBuffer) := by
    refine ⟨⟨⟨rfl, Nat.zero_le _, Nat.zero_le _⟩, ⟨Nat.zero_le _, Nat.zero_le _, fun _ hmem => ?_,
      fun _ => rfl⟩⟩, fun _ hmem => ?_⟩
    · cases hmem
    · cases hmem
  have hinv : Machine.Always (next quote) (Throughout (MemoryWithin quote limit r)) steps
      (registerConn limit maxWriteBuffer) := by
    refine always_of_heeds ?_ hstart (heeds_of_forall h _)
    intro conn i conn' hconn hi hstep
    cases hstep
    exact memoryWithin_step quote hconn hi
  exact hinv.mono fun conn hconn => hconn.mono fun m hm =>
    ⟨hm.output.output, hm.output.writeBuf, hm.reads.readBuf⟩

/-- Two requests with replies of 32 bytes, and a socket that takes nothing. -/
theorem response_memory_bounded_trickle :
    Machine.Always (next id)
      (Throughout fun m =>
        m.pendingOutputBytes ≤ eventLoopOutputHighWater + max 32 (protoReplyBytes id m) ∧
        m.writeBuf.length ≤ 2 * eventLoopOutputHighWater + max 32 (protoReplyBytes id m) ∧
        m.readBuf.length ≤ 512)
      (List.replicate 2 (.readable (trickle (replyOf 29)))) (registerConn 512 512) := by
  refine response_memory_bounded id 512 512 32 _ fun i hi => ?_
  obtain rfl := (mem_replicate.mp hi).2
  exact socketEvent_trickle 29

/-! ### The reply to a protocol error -/

/-- `n` bytes wait to be written. -/
structure Filled (n : Nat) (conn : EventConn) : Prop where
  machine : ∃ output, conn.machine = holding 0 output ∧ output.length = n
  registered : conn.registered = true
  peerClosed : conn.peerClosed = false

theorem fdWrite_nil {p : Bytes} (h : p ≠ []) : fdWrite [] p = (⟨0, some .wouldBlock⟩, []) := by
  obtain ⟨b, p, rfl⟩ := exists_cons_of_ne_nil h
  rfl

theorem finishConnEvent_full (conn : EventConn) (hopen : conn.machine.state ≠ .closed)
    (hoff : conn.machine.writeOff < conn.machine.writeBuf.length) (hpeer : conn.peerClosed = false) :
    (conn.finishConnEvent [] none).machine = conn.machine ∧
      (conn.finishConnEvent [] none).registered = conn.registered ∧
        (conn.finishConnEvent [] none).peerClosed = false := by
  have hne : conn.machine.output ≠ [] := by
    rw [← length_pos_iff, length_output]
    exact Nat.sub_pos_of_lt hoff
  rw [finishConnEvent_eq none hopen (conn.flushOnce_full hopen hoff (fdWrite_nil hne))]
  obtain ⟨wantRead, wantWrite, hsettle⟩ := settle_open (conn.become conn.machine) hopen hpeer
  rw [hsettle]
  exact ⟨rfl, rfl, hpeer⟩

theorem Filled.step {n : Nat} (h : Filled n conn)
    {reply : Value} (hn : n ≤ eventLoopOutputHighWater) (hreply : reply.encode ≠ [])
    (hsmall : reply.encode.length ≤ eventLoopOutputHighWater) :
    Filled (n + reply.encode.length) (conn.step quote (.readable (trickle reply))) := by
  obtain ⟨output, hmachine, hlength⟩ := h.machine
  have hdrains : Drains decode (ascii "_\r\n") (List.replicate 1 .null) [] (.incomplete none) :=
    .value rfl (.stop rfl)
  have hread : readLoop (trickle reply).reads eventLoopReadBudget conn =
      (conn.become (holding 1 output), true) :=
    readLoop_short (by decide) (by decide) (by rw [hmachine]; rfl)
      (by rw [hmachine]; exact feed_holding 0 1 output hdrains)
  have hnext : (holding 1 output).processNext quote ((trickle reply).runs 0) =
      (holding 0 (output ++ reply.encode), .ok false) := by
    refine processNext_holding quote ?_
    rw [length_append, hlength]
    exact le_trans (Nat.add_le_add hn hsmall) (by decide)
  have hdrain : (conn.become (holding 1 output)).drain [] =
      (conn.become (holding 1 output), [], .proceed) := by
    refine drain_below ?_
    change output.length - 0 ≤ _
    omega
  have hloop : processLoop quote ((conn.become (holding 1 output)).machine.pending.length + 1)
      (trickle reply).runs (conn.become (holding 1 output)) (trickle reply).writes =
        ((conn.become (holding 1 output)).become (holding 0 (output ++ reply.encode)), [], true) :=
    processLoop_last open_holding hdrain hnext
  have hout : conn.machine.pendingOutputBytes ≤ eventLoopOutputHighWater := by
    rw [hmachine]
    change output.length - 0 ≤ _
    omega
  have hpos : 0 < (output ++ reply.encode).length := by
    rw [length_append]
    exact Nat.add_pos_right _ (length_pos_iff.mpr hreply)
  have hconn : conn.step quote (.readable (trickle reply)) = conn.connReadable quote (trickle reply) :=
    if_pos h.registered
  obtain ⟨hsame, hregistered, hpeer⟩ := finishConnEvent_full
    ((conn.become (holding 1 output)).become (holding 0 (output ++ reply.encode))) open_holding hpos
    h.peerClosed
  rw [hconn, connReadable_eq hout hread, processConn_eq hloop]
  refine ⟨⟨output ++ reply.encode, hsame, ?_⟩, hregistered.trans h.registered, hpeer⟩
  rw [length_append, hlength]

theorem Filled.run {n k : Nat} {conn : EventConn} (h : Filled n conn)
    (hk : n + k * 32 ≤ eventLoopOutputHighWater) : ∃ conn',
      run (next quote) (List.replicate k (.readable (trickle (replyOf 29)))) conn = some conn' ∧
        Filled (n + k * 32) conn' := by
  induction k generalizing n conn with
  | zero => exact ⟨conn, rfl, h⟩
  | succ k ih =>
    have hlength : (replyOf 29).encode.length = 32 := length_replyOf 29
    have hne : (replyOf 29).encode ≠ [] := by
      rw [← length_pos_iff, hlength]
      decide
    have hstep : Filled (n + (replyOf 29).encode.length)
        (conn.step quote (.readable (trickle (replyOf 29)))) :=
      h.step quote (by omega) hne (by rw [hlength]; decide)
    rw [hlength] at hstep
    obtain ⟨conn', hrun, hconn'⟩ := ih hstep (by omega)
    refine ⟨conn', hrun, ?_⟩
    rwa [show n + (k + 1) * 32 = n + 32 + k * 32 by omega]

/-- A malformed integer arrives; the socket takes nothing. -/
def malformed : Environment where
  reads := [.read (ascii ":x\r\n")]

/-- Its error. -/
def malformedError : ProtoError :=
  .malformed (.wrap .parseInteger .invalidSyntax)

theorem length_malformedReply : (protoReply quote malformedError).encode.length = 46 :=
  rfl

/-- The machine after the reply. -/
def replied (quote : Bytes → Bytes) (output : Bytes) : ConnMachine :=
  { (holding 0 output).enterProtocolError malformedError with
    pending := [], writeBuf := output ++ (protoReply quote malformedError).encode }

theorem processNext_malformed {output : Bytes}
    (houtput : output.length ≤ eventLoopOutputHighWater) (run : ConnCommandRunner) :
    ((holding 0 output).enterProtocolError malformedError).processNext quote run =
      (replied quote output, .ok false) := by
  have hreply := length_malformedReply quote
  have hlimit : eventLoopOutputHighWater + 46 ≤ defaultMaxWriteBuffer := by decide
  refine processNext_done (fun hclosed => by cases hclosed) rfl rfl (bufferResponses_one rfl ?_)
  change (output ++ (protoReply quote malformedError).encode).length ≤ defaultMaxWriteBuffer
  rw [length_append, hreply]
  omega

/-- **The reply to a protocol error goes over the mark.** -/
theorem Filled.malformed {n : Nat} (h : Filled n conn) (hn : n ≤ eventLoopOutputHighWater) :
    (conn.step quote (.readable EventConn.malformed)).machine.pendingOutputBytes = n + 46 := by
  obtain ⟨output, hmachine, hlength⟩ := h.machine
  have hdrains : Drains decode ((holding 0 output).readBuf ++ ascii ":x\r\n") [] (ascii ":x\r\n")
      (.permanent (.wrap .parseInteger .invalidSyntax)) := .stop rfl
  have hresume : ¬(0 < (holding 0 output).resumeAt ∧
      ((holding 0 output).readBuf ++ ascii ":x\r\n").length < (holding 0 output).resumeAt) := by
    rintro ⟨hpos, -⟩
    exact absurd hpos (Nat.lt_irrefl 0)
  have hfeed : (holding 0 output).feed (ascii ":x\r\n") =
      ((holding 0 output).enterProtocolError malformedError, none) :=
    Prod.ext ((feed_eq rfl hresume hdrains).1 _ rfl) (feed_err rfl _)
  have hread : readLoop EventConn.malformed.reads eventLoopReadBudget conn =
      (conn.become ((holding 0 output).enterProtocolError malformedError), true) :=
    readLoop_short (by decide) (by decide) (by rw [hmachine]; rfl) (by rw [hmachine]; exact hfeed)
  have hout : conn.machine.pendingOutputBytes ≤ eventLoopOutputHighWater := by
    rw [hmachine]
    change output.length - 0 ≤ _
    omega
  have hdrain : (conn.become ((holding 0 output).enterProtocolError malformedError)).drain [] =
      (conn.become ((holding 0 output).enterProtocolError malformedError), [], .proceed) := by
    refine drain_below ?_
    change output.length - 0 ≤ _
    omega
  have hnext := processNext_malformed quote (hlength ▸ hn) (EventConn.malformed.runs 0)
  have hloop : processLoop quote
      ((conn.become ((holding 0 output).enterProtocolError malformedError)).machine.pending.length + 1)
      EventConn.malformed.runs (conn.become ((holding 0 output).enterProtocolError malformedError))
      EventConn.malformed.writes =
        ((conn.become ((holding 0 output).enterProtocolError malformedError)).become
          (replied quote output), [], true) :=
    processLoop_last (fun hclosed => by cases hclosed) hdrain hnext
  have hconn : conn.step quote (.readable EventConn.malformed) =
      conn.connReadable quote EventConn.malformed := if_pos h.registered
  have hreplied : (replied quote output).pendingOutputBytes = n + 46 := by
    change (output ++ (protoReply quote malformedError).encode).length - 0 = n + 46
    rw [length_append, hlength, length_malformedReply]
    rfl
  have hpos : 0 < (replied quote output).pendingOutputBytes := by
    rw [hreplied]
    exact Nat.zero_lt_succ _
  have hfinish := finishConnEvent_full
    ((conn.become ((holding 0 output).enterProtocolError malformedError)).become (replied quote output))
    (fun hclosed => by cases hclosed) hpos h.peerClosed
  rw [hconn, connReadable_eq hout hread, processConn_eq hloop]
  exact (congrArg pendingOutputBytes hfinish.1).trans hreplied

/-- **One reply of a runner does not bound the output**: with responses of at most 32 bytes, 32768
requests fill the output up to the mark, and a malformed one adds the error reply of 46 bytes. -/
theorem protocol_error_exceeds_bound :
    ¬∀ (quote : Bytes → Bytes) (limit maxWriteBuffer r : Nat) (steps : List Step),
      (∀ i ∈ steps, SocketEvent r i) →
        Machine.Always (next quote)
          (fun conn => conn.machine.pendingOutputBytes ≤ eventLoopOutputHighWater + r) steps
          (registerConn limit maxWriteBuffer) := by
  intro hbound
  have hstart : Filled 0 (registerConn defaultMaxReadBuffer defaultMaxWriteBuffer) :=
    ⟨⟨[], rfl, rfl⟩, rfl, rfl⟩
  obtain ⟨conn, hrun, hfilled⟩ := Filled.run id (k := 32768) hstart (by decide)
  have hsocket : ∀ i ∈ List.replicate 32768 (Step.readable (trickle (replyOf 29))) ++
      [.readable malformed], SocketEvent 32 i := by
    intro i hi
    rcases mem_append.mp hi with hi | hi
    · obtain rfl := (mem_replicate.mp hi).2
      exact socketEvent_trickle 29
    · obtain rfl := mem_singleton.mp hi
      intro _ value responses hresponses
      cases hresponses
      exact Nat.zero_le _
  have hlast := (hbound id defaultMaxReadBuffer defaultMaxWriteBuffer 32 _ hsocket).last
    (by rw [run_append, hrun]; rfl)
  rw [hfilled.malformed id (by decide)] at hlast
  exact absurd hlast (by decide)

end EventConn

end Stash
