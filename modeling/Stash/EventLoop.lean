import Stash.ConnOutput
import Stash.Machine

/-!
# One connection in the event loop

The event loop serves all connections from one goroutine.  For a connection it does one of three
things at a time: it delivers what other goroutines have pushed (`applyQueuedWork`), it reads and
executes when the socket is readable (`connReadable`), or it goes on executing when the socket is
writable (`processConn`).  Every one of them ends in `finishConnEvent`, which flushes and says what
the poller shall report next.

What the kernel and the commands answer during one step is an `Environment`: the results of the reads
and writes in their order, the result of changing the interest set, and the runner of each execution.
When no more results are given, the call would block.

A panic of a runner is recovered and closes the connection, as an error of the runner does; it is not
modelled.  The descriptor, the identity of the client and the tearing down of the client are left out.
-/

namespace Stash

/-- Size of the buffer for reads. -/
def eventLoopReadChunk : Nat := 64 * 1024

/-- Bytes that may be read in one step. -/
def eventLoopReadBudget : Nat := 1024 * 1024

/-- Above this level of pending output no more is read or executed. -/
def eventLoopOutputHighWater : Nat := 1024 * 1024

/-! ## System calls -/

/-- The result of `syscall.Write`. -/
inductive SysWrite where
  | wrote (n : Nat)
  | interrupted
  | wouldBlock
  | failed (text : String)
  deriving DecidableEq, Repr

/-- The result of `syscall.Read`; no data is the end of the input. -/
inductive SysRead where
  | read (data : Bytes)
  | interrupted
  | wouldBlock
  | failed (text : String)
  deriving DecidableEq, Repr

/-- `fdWriter.Write`: what it answers, and the results that are not used up. -/
def fdWrite : List SysWrite → Bytes → ConnMachine.WriteAnswer × List SysWrite
  | writes, [] => (⟨0, none⟩, writes)
  | [], _ :: _ => (⟨0, some .wouldBlock⟩, [])
  | .wrote n :: writes, b :: p =>
    let more := fdWrite writes ((b :: p).drop n)
    (⟨min n (b :: p).length + more.1.n, more.1.err⟩, more.2)
  | .interrupted :: writes, b :: p => fdWrite writes (b :: p)
  | .wouldBlock :: writes, _ :: _ => (⟨0, some .wouldBlock⟩, writes)
  | .failed text :: writes, _ :: _ => (⟨0, some (.external text)⟩, writes)

/-- What the step of a connection meets. -/
structure Environment where
  reads : List SysRead := []
  writes : List SysWrite := []
  /-- the error of `poller.Set` -/
  set : Option ConnError := none
  /-- the runner of the first execution of the step, of the second, and so on -/
  runs : Nat → ConnCommandRunner := fun _ _ => .ok []

/-! ## The connection -/

/-- `eventConn`. -/
structure EventConn where
  machine : ConnMachine
  wantRead : Bool := true
  wantWrite : Bool := false
  peerClosed : Bool := false
  pushBuf : Bytes := []
  /-- it is in the list of connections with pushed bytes -/
  pushQueued : Bool := false
  closeRequested : Bool := false
  /-- it is in the list of connections to close -/
  closeQueued : Bool := false
  detached : Bool := false
  /-- the loop has it under its descriptor -/
  registered : Bool := true
  /-- the states the machine was in; no part of the source -/
  passed : List ConnMachine := []

namespace EventConn

/-- The machine is changed. -/
def become (conn : EventConn) (machine : ConnMachine) : EventConn :=
  { conn with machine := machine, passed := machine :: conn.passed }

/-- `closeConn`. -/
def closeConn (conn : EventConn) (cause : Option ConnError) : EventConn :=
  if conn.registered then
    { conn.become (conn.machine.close cause) with registered := false, detached := true, pushBuf := [] }
  else conn

/-- `setInterest`; `set` is the error of the poller. -/
def setInterest (conn : EventConn) (set : Option ConnError) (wantRead wantWrite : Bool) :
    EventConn :=
  if conn.wantRead = wantRead ∧ conn.wantWrite = wantWrite then conn
  else
    match set with
    | some err => conn.closeConn (some err)
    | none => { conn with wantRead := wantRead, wantWrite := wantWrite }

/-- `flushOnce`, and whether the connection is still usable. -/
def flushOnce (conn : EventConn) (writes : List SysWrite) : EventConn × List SysWrite × Bool :=
  let left := (fdWrite writes conn.machine.output).2
  match conn.machine.flush fun p => (fdWrite writes p).1 with
  | (machine, _, none) => (conn.become machine, left, true)
  | (machine, _, some .wouldBlock) => (conn.become machine, left, true)
  | (machine, _, some err) => ((conn.become machine).closeConn (some err), left, false)

/-- What `finishConnEvent` does after the flush. -/
def settle (conn : EventConn) (set : Option ConnError) : EventConn :=
  if conn.machine.state = .closed then conn.closeConn conn.machine.err
  else if conn.peerClosed ∧ conn.machine.hasPendingOutput = false ∧ conn.machine.pendingRequests = 0 then
    conn.closeConn none
  else
    conn.setInterest set
      (!conn.peerClosed && decide (conn.machine.pendingOutputBytes ≤ eventLoopOutputHighWater))
      conn.machine.hasPendingOutput

/-- `finishConnEvent`. -/
def finishConnEvent (conn : EventConn) (writes : List SysWrite) (set : Option ConnError) :
    EventConn :=
  if conn.machine.state = .closed then conn.closeConn conn.machine.err
  else
    match conn.flushOnce writes with
    | (conn, _, false) => conn
    | (conn, _, true) => conn.settle set

/-! ### Executing -/

/-- Where the loop of `processConn` stands after it has looked at the output. -/
inductive Pause where
  /-- the next event is executed -/
  | proceed
  /-- the loop is left, with the output above the mark -/
  | wait
  /-- the connection is gone -/
  | gone
  deriving DecidableEq, Repr

/-- The flush of `processConn` above the high-water mark. -/
def drain (conn : EventConn) (writes : List SysWrite) : EventConn × List SysWrite × Pause :=
  if eventLoopOutputHighWater < conn.machine.pendingOutputBytes then
    match conn.flushOnce writes with
    | (conn, writes, false) => (conn, writes, .gone)
    | (conn, writes, true) =>
      if eventLoopOutputHighWater < conn.machine.pendingOutputBytes then (conn, writes, .wait)
      else (conn, writes, .proceed)
  else (conn, writes, .proceed)

/-- The loop of `processConn`, and whether `finishConnEvent` follows.  An event is executed in each
turn, so the fuel is the number of pending events. -/
def processLoop (quote : Bytes → Bytes) : Nat → (Nat → ConnCommandRunner) → EventConn →
    List SysWrite → EventConn × List SysWrite × Bool
  | 0, _, conn, writes => (conn, writes, true)
  | fuel + 1, runs, conn, writes =>
    if conn.machine.state = .closed then (conn, writes, true)
    else
      match conn.drain writes with
      | (conn, writes, .gone) => (conn, writes, false)
      | (conn, writes, .wait) => (conn, writes, true)
      | (conn, writes, .proceed) =>
        match conn.machine.processNext quote (runs 0) with
        | (machine, .error err) => ((conn.become machine).closeConn (some err), writes, false)
        | (machine, .ok false) => (conn.become machine, writes, true)
        | (machine, .ok true) =>
          processLoop quote fuel (fun i => runs (i + 1)) (conn.become machine) writes

/-- `processConn`. -/
def processConn (quote : Bytes → Bytes) (conn : EventConn) (env : Environment) : EventConn :=
  match processLoop quote (conn.machine.pending.length + 1) env.runs conn env.writes with
  | (conn, _, false) => conn
  | (conn, writes, true) => conn.finishConnEvent writes env.set

/-! ### Reading -/

/-- The bytes of one read go to the machine, unless it takes no more input. -/
def feedRead (conn : EventConn) (data : Bytes) : EventConn × Option ConnError :=
  if conn.machine.state = .active then
    (conn.become (conn.machine.feed data).1, (conn.machine.feed data).2)
  else (conn, none)

/-- The loop of `connReadable`, and whether `processConn` follows. -/
def readLoop : List SysRead → Nat → EventConn → EventConn × Bool
  | [], _, conn => (conn, true)
  | call :: calls, budget, conn =>
    if budget = 0 then (conn, true)
    else
      match call with
      | .read data =>
        let data := data.take eventLoopReadChunk
        if data = [] then ({ conn with peerClosed := true }, true)
        else
          match conn.feedRead data with
          | (conn, some err) => (conn.closeConn (some err), false)
          | (conn, none) =>
            if data.length < eventLoopReadChunk then (conn, true)
            else readLoop calls (budget - data.length) conn
      | .interrupted => readLoop calls budget conn
      | .wouldBlock => (conn, true)
      | .failed text => (conn.closeConn (some (.external text)), false)

/-- `connReadable`. -/
def connReadable (quote : Bytes → Bytes) (conn : EventConn) (env : Environment) : EventConn :=
  if conn.machine.pendingOutputBytes ≤ eventLoopOutputHighWater then
    match readLoop env.reads eventLoopReadBudget conn with
    | (conn, false) => conn
    | (conn, true) => conn.processConn quote env
  else conn.processConn quote env

/-! ### Work of other goroutines -/

/-- `requestClose`. -/
def requestClose (conn : EventConn) : EventConn :=
  if conn.detached ∨ conn.closeRequested then conn
  else { conn with closeRequested := true, closeQueued := true }

/-- `queuePush`. -/
def queuePush (conn : EventConn) (payload : Bytes) : EventConn :=
  if conn.detached then conn
  else if defaultMaxWriteBuffer < conn.pushBuf.length + payload.length then conn.requestClose
  else { conn with pushBuf := conn.pushBuf ++ payload, pushQueued := true }

/-- The push delivery of `applyQueuedWork`. -/
def deliverPush (conn : EventConn) (env : Environment) : EventConn :=
  if conn.pushQueued then
    if conn.detached ∨ conn.pushBuf = [] then { conn with pushQueued := false }
    else
      let data := conn.pushBuf
      let conn := { conn with pushBuf := [], pushQueued := false }
      if conn.registered then
        match conn.machine.bufferEncoded data with
        | (machine, some err) => (conn.become machine).closeConn (some err)
        | (machine, none) => (conn.become machine).finishConnEvent env.writes env.set
      else conn
  else conn

/-- `applyQueuedWork`: pushed bytes first, then the request to close. -/
def applyQueuedWork (conn : EventConn) (env : Environment) : EventConn :=
  let requested := conn.closeQueued
  let conn := { conn with closeQueued := false }.deliverPush env
  if requested then conn.closeConn none else conn

/-! ### Runs -/

/-- What happens to a connection: other goroutines hand work to the loop, and the loop serves the
connection. -/
inductive Step where
  | queuePush (payload : Bytes)
  | requestClose
  | applyQueuedWork (env : Environment)
  | readable (env : Environment)
  | writable (env : Environment)

def step (quote : Bytes → Bytes) (conn : EventConn) : Step → EventConn
  | .queuePush payload => conn.queuePush payload
  | .requestClose => conn.requestClose
  | .applyQueuedWork env => conn.applyQueuedWork env
  | .readable env => if conn.registered then conn.connReadable quote env else conn
  | .writable env => if conn.registered then conn.processConn quote env else conn

/-- A step can always be taken. -/
def next (quote : Bytes → Bytes) (conn : EventConn) (i : Step) : Option EventConn :=
  some (conn.step quote i)

/-- `registerConn`. -/
def registerConn (maxReadBuffer maxWriteBuffer : Nat) : EventConn where
  machine := .new maxReadBuffer maxWriteBuffer

/-! ## Turns of the loop -/

section Turns

variable {quote : Bytes → Bytes} {runs : Nat → ConnCommandRunner} {fuel : Nat}
  {writes writes' : List SysWrite} {conn conn' : EventConn} {env : Environment}

theorem drain_below (h : conn.machine.pendingOutputBytes ≤ eventLoopOutputHighWater) :
    conn.drain writes = (conn, writes, .proceed) := by
  unfold drain
  rw [if_neg (not_lt.mpr h)]

theorem drain_wait (hout : eventLoopOutputHighWater < conn.machine.pendingOutputBytes)
    (hflush : conn.flushOnce writes = (conn', writes', true))
    (hout' : eventLoopOutputHighWater < conn'.machine.pendingOutputBytes) :
    conn.drain writes = (conn', writes', .wait) := by
  unfold drain
  rw [if_pos hout, hflush]
  exact if_pos hout'

theorem processLoop_wait (hopen : conn.machine.state ≠ .closed)
    (hdrain : conn.drain writes = (conn', writes', .wait)) :
    processLoop quote (fuel + 1) runs conn writes = (conn', writes', true) := by
  rw [processLoop, if_neg hopen, hdrain]

variable {m : ConnMachine}

theorem processLoop_more (hopen : conn.machine.state ≠ .closed)
    (hdrain : conn.drain writes = (conn', writes', .proceed))
    (hnext : conn'.machine.processNext quote (runs 0) = (m, .ok true)) :
    processLoop quote (fuel + 1) runs conn writes =
      processLoop quote fuel (fun i => runs (i + 1)) (conn'.become m) writes' := by
  rw [processLoop, if_neg hopen, hdrain]
  simp only [hnext]

theorem processLoop_last (hopen : conn.machine.state ≠ .closed)
    (hdrain : conn.drain writes = (conn', writes', .proceed))
    (hnext : conn'.machine.processNext quote (runs 0) = (m, .ok false)) :
    processLoop quote (fuel + 1) runs conn writes = (conn'.become m, writes', true) := by
  rw [processLoop, if_neg hopen, hdrain]
  simp only [hnext]

theorem flushOnce_full (conn : EventConn) (hopen : conn.machine.state ≠ .closed)
    (hoff : conn.machine.writeOff < conn.machine.writeBuf.length)
    (hfull : fdWrite writes conn.machine.output = (⟨0, some .wouldBlock⟩, writes')) :
    conn.flushOnce writes = (conn.become conn.machine, writes', true) := by
  have hflush : conn.machine.flush (fun p => (fdWrite writes p).1) =
      (conn.machine, [], some .wouldBlock) :=
    ConnMachine.flush_blocked hopen hoff (congrArg Prod.fst hfull)
  unfold flushOnce
  rw [hflush, hfull]

theorem finishConnEvent_eq (set : Option ConnError) (hopen : conn.machine.state ≠ .closed)
    (hflush : conn.flushOnce writes = (conn', writes', true)) :
    conn.finishConnEvent writes set = conn'.settle set := by
  unfold finishConnEvent
  rw [if_neg hopen, hflush]

theorem settle_calm (conn : EventConn) (set : Option ConnError)
    (hopen : conn.machine.state ≠ .closed)
    (hout : conn.machine.pendingOutputBytes = 0) (hpeer : conn.peerClosed = false)
    (hread : conn.wantRead = true) (hwrite : conn.wantWrite = false) : conn.settle set = conn := by
  unfold settle setInterest ConnMachine.hasPendingOutput
  rw [if_neg hopen, if_neg (by simp [hpeer]), if_pos (by simp [hout, hpeer, hread, hwrite])]

theorem settle_open (conn : EventConn) (hopen : conn.machine.state ≠ .closed)
    (hpeer : conn.peerClosed = false) : ∃ wantRead wantWrite,
      conn.settle none = { conn with wantRead := wantRead, wantWrite := wantWrite } := by
  unfold settle setInterest
  rw [if_neg hopen, if_neg (by simp [hpeer])]
  split
  · exact ⟨_, _, rfl⟩
  · exact ⟨_, _, rfl⟩

theorem processConn_eq
    (hloop : processLoop quote (conn.machine.pending.length + 1) env.runs conn env.writes =
      (conn', writes', true)) :
    conn.processConn quote env = conn'.finishConnEvent writes' env.set := by
  unfold processConn
  rw [hloop]

theorem readLoop_short {data : Bytes} (hne : data ≠ []) (hshort : data.length < eventLoopReadChunk) (hactive : conn.machine.state = .active)
    (hfeed : conn.machine.feed data = (m, none)) :
    readLoop [.read data] eventLoopReadBudget conn = (conn.become m, true) := by
  have hread : conn.feedRead data = (conn.become m, none) := by
    unfold feedRead
    rw [if_pos hactive, hfeed]
  simp only [readLoop, List.take_of_length_le hshort.le]
  rw [if_neg (by decide), if_neg hne, hread]
  exact if_pos hshort

theorem connReadable_eq (hout : conn.machine.pendingOutputBytes ≤ eventLoopOutputHighWater)
    (hread : readLoop env.reads eventLoopReadBudget conn = (conn', true)) :
    conn.connReadable quote env = conn'.processConn quote env := by
  unfold connReadable
  rw [if_pos hout, hread]

end Turns

/-! ## Properties of the machine that the loop keeps -/

/-- The property holds of the machine, and held in every state it was in. -/
structure Throughout (P : ConnMachine → Prop) (conn : EventConn) : Prop where
  now : P conn.machine
  before : ∀ m ∈ conn.passed, P m

/-- **What a property of machines needs** to be kept by the loop, reading apart: events are executed
only at or below the high-water mark, by a runner of the given kind. -/
structure Keeps (quote : Bytes → Bytes) (Allowed : ConnCommandRunner → Prop)
    (P : ConnMachine → Prop) : Prop where
  close : ∀ {m : ConnMachine} (err : Option ConnError), P m → P (m.close err)
  flush : ∀ {m : ConnMachine} (w : Bytes → ConnMachine.WriteAnswer), P m → P (m.flush w).1
  processNext : ∀ {m : ConnMachine} {run : ConnCommandRunner}, Allowed run → P m →
    m.pendingOutputBytes ≤ eventLoopOutputHighWater → P (m.processNext quote run).1

section Keeps

variable {quote : Bytes → Bytes} {Allowed : ConnCommandRunner → Prop} {P : ConnMachine → Prop}
  {conn : EventConn}

theorem Throughout.become (h : Throughout P conn) {m : ConnMachine} (hm : P m) :
    Throughout P (conn.become m) := by
  refine ⟨hm, fun m' hmem => ?_⟩
  rcases List.mem_cons.mp hmem with rfl | hmem
  · exact hm
  · exact h.before m' hmem

theorem Throughout.mono {Q : ConnMachine → Prop} (hPQ : ∀ m, P m → Q m) (h : Throughout P conn) :
    Throughout Q conn :=
  ⟨hPQ _ h.now, fun m hmem => hPQ m (h.before m hmem)⟩

theorem Throughout.congr {conn' : EventConn} (h : Throughout P conn)
    (hmachine : conn'.machine = conn.machine) (hpassed : conn'.passed = conn.passed) :
    Throughout P conn' :=
  ⟨hmachine ▸ h.now, hpassed ▸ h.before⟩

theorem Throughout.closeConn
    (hclose : ∀ {m : ConnMachine} (err : Option ConnError), P m → P (m.close err))
    (h : Throughout P conn) (cause : Option ConnError) : Throughout P (conn.closeConn cause) := by
  unfold EventConn.closeConn
  split
  · exact (h.become (hclose cause h.now)).congr rfl rfl
  · exact h

section

variable (hP : Keeps quote Allowed P)
include hP

section

variable (h : Throughout P conn)
include h

section

variable (writes : List SysWrite) (set : Option ConnError)

theorem Keeps.flushOnce : Throughout P (conn.flushOnce writes).1 := by
  have hflush := h.become (hP.flush (fun p => (fdWrite writes p).1) h.now)
  unfold EventConn.flushOnce
  generalize conn.machine.flush _ = result at hflush
  obtain ⟨machine, taken, err⟩ := result
  simp only
  split
  · rename_i heq
    obtain ⟨rfl, -⟩ := Prod.mk.inj heq
    exact hflush
  · rename_i heq
    obtain ⟨rfl, -⟩ := Prod.mk.inj heq
    exact hflush
  · rename_i heq
    obtain ⟨rfl, -⟩ := Prod.mk.inj heq
    exact hflush.closeConn hP.close _

theorem Keeps.settle : Throughout P (conn.settle set) := by
  unfold EventConn.settle
  split
  · exact h.closeConn hP.close _
  · split
    · exact h.closeConn hP.close _
    · unfold setInterest
      split
      · exact h
      · split
        · exact h.closeConn hP.close _
        · exact h.congr rfl rfl

theorem Keeps.finishConnEvent : Throughout P (conn.finishConnEvent writes set) := by
  unfold EventConn.finishConnEvent
  split
  · exact h.closeConn hP.close _
  · have hflush := hP.flushOnce h writes
    split
    · rename_i heq
      rwa [heq] at hflush
    · rename_i heq
      rw [heq] at hflush
      exact hP.settle hflush set

theorem Keeps.drain : Throughout P (conn.drain writes).1 := by
  unfold EventConn.drain
  split
  · have hflush := hP.flushOnce h writes
    split
    · rename_i heq
      rwa [heq] at hflush
    · rename_i heq
      rw [heq] at hflush
      split <;> exact hflush
  · exact h

end

end

end

theorem drain_proceed {writes writes' : List SysWrite} {conn' : EventConn}
    (h : conn.drain writes = (conn', writes', .proceed)) :
    conn'.machine.pendingOutputBytes ≤ eventLoopOutputHighWater := by
  unfold EventConn.drain at h
  split at h
  · split at h
    · cases h
    · split at h
      · cases h
      · rename_i hle
        obtain ⟨rfl, -⟩ := Prod.mk.inj h
        exact not_lt.mp hle
  · rename_i hle
    obtain ⟨rfl, -⟩ := Prod.mk.inj h
    exact not_lt.mp hle

section

variable (hP : Keeps quote Allowed P)
include hP

theorem Keeps.processLoop {fuel : Nat} {runs : Nat → ConnCommandRunner}
    (hruns : ∀ i, Allowed (runs i)) (h : Throughout P conn) (writes : List SysWrite) :
    Throughout P (EventConn.processLoop quote fuel runs conn writes).1 := by
  induction fuel generalizing runs conn writes with
  | zero => exact h
  | succ fuel ih =>
    unfold EventConn.processLoop
    split
    · exact h
    · have hdrain := hP.drain h writes
      split
      · rename_i heq
        rwa [heq] at hdrain
      · rename_i heq
        rwa [heq] at hdrain
      · rename_i heq
        rw [heq] at hdrain
        have hnext := hdrain.become (hP.processNext (hruns 0) hdrain.now (drain_proceed heq))
        split
        · rename_i heq
          rw [heq] at hnext
          exact hnext.closeConn hP.close _
        · rename_i heq
          rwa [heq] at hnext
        · rename_i heq
          rw [heq] at hnext
          exact ih (fun i => hruns (i + 1)) hnext _

theorem Keeps.processConn (h : Throughout P conn) {env : Environment}
    (hruns : ∀ i, Allowed (env.runs i)) : Throughout P (conn.processConn quote env) := by
  unfold EventConn.processConn
  have hloop : Throughout P (EventConn.processLoop quote (conn.machine.pending.length + 1) env.runs
      conn env.writes).1 := hP.processLoop hruns h env.writes
  split
  · rename_i heq
    rwa [heq] at hloop
  · rename_i heq
    rw [heq] at hloop
    exact hP.finishConnEvent hloop _ _

theorem Keeps.applyQueuedWork (h : Throughout P conn) (env : Environment)
    (hpush : conn.pushBuf ≠ [] → P (conn.machine.bufferEncoded conn.pushBuf).1) :
    Throughout P (conn.applyQueuedWork env) := by
  have hdeliver : Throughout P ({ conn with closeQueued := false }.deliverPush env) := by
    unfold deliverPush
    split
    · split
      · exact h.congr rfl rfl
      · rename_i hpushed
        have hbuffer := hpush fun hnil => hpushed (.inr hnil)
        have hflags : Throughout P { conn with closeQueued := false, pushBuf := [], pushQueued := false } :=
          h.congr rfl rfl
        simp only
        split
        · split
          · rename_i heq
            rw [heq] at hbuffer
            exact (hflags.become hbuffer).closeConn hP.close _
          · rename_i heq
            rw [heq] at hbuffer
            exact hP.finishConnEvent (hflags.become hbuffer) _ _
        · exact hflags
    · exact h.congr rfl rfl
  unfold EventConn.applyQueuedWork
  simp only
  split
  · exact hdeliver.closeConn hP.close _
  · exact hdeliver

end

end Keeps

theorem Throughout.requestClose {P : ConnMachine → Prop} {conn : EventConn}
    (h : Throughout P conn) : Throughout P conn.requestClose := by
  unfold EventConn.requestClose
  split
  · exact h
  · exact h.congr rfl rfl

theorem Throughout.queuePush {P : ConnMachine → Prop} {conn : EventConn} (h : Throughout P conn)
    (payload : Bytes) : Throughout P (conn.queuePush payload) := by
  unfold EventConn.queuePush
  split
  · exact h
  · split
    · exact h.requestClose
    · exact h.congr rfl rfl

/-! ### Reading -/

/-- The bytes that may be read with this budget: the last read may go over it. -/
def readBound (budget : Nat) : Nat :=
  if budget = 0 then 0 else budget + eventLoopReadChunk

/-- **The loop of `connReadable`**: a property that follows from another one, which counts the bytes
fed so far. -/
theorem throughout_readLoop {P : Nat → ConnMachine → Prop} {Q : ConnMachine → Prop} {top : Nat}
    (hclose : ∀ {m : ConnMachine} (err : Option ConnError), Q m → Q (m.close err))
    (hfeed : ∀ {k : Nat} {m : ConnMachine} {data : Bytes}, P k m → P (k + data.length) (m.feed data).1)
    (hmono : ∀ {k k' : Nat} {m : ConnMachine}, k ≤ k' → P k m → P k' m)
    (htop : ∀ {m : ConnMachine}, P top m → Q m) {calls : List SysRead} {budget k : Nat}
    {conn : EventConn} (hk : k + readBound budget ≤ top) (hnow : P k conn.machine)
    (h : Throughout Q conn) : Throughout Q (readLoop calls budget conn).1 := by
  induction calls generalizing budget k conn with
  | nil => exact h
  | cons call calls ih =>
    unfold readLoop
    split
    · exact h
    · rename_i hbudget
      have hbound : readBound budget = budget + eventLoopReadChunk := if_neg hbudget
      cases call with
      | read data =>
        simp only
        have htake : (data.take eventLoopReadChunk).length ≤ eventLoopReadChunk :=
          List.length_take_le _ _
        generalize data.take eventLoopReadChunk = data at htake
        split
        · exact h.congr rfl rfl
        · -- the bytes of one read
          have hfed : P (k + data.length) (conn.feedRead data).1.machine ∧
              Throughout Q (conn.feedRead data).1 := by
            unfold feedRead
            split
            · exact ⟨hfeed hnow, h.become (htop (hmono (by omega) (hfeed hnow)))⟩
            · exact ⟨hmono (Nat.le_add_right _ _) hnow, h⟩
          split
          · rename_i heq
            rw [heq] at hfed
            exact hfed.2.closeConn hclose _
          · rename_i heq
            rw [heq] at hfed
            split
            · exact hfed.2
            · refine ih ?_ hfed.1 hfed.2
              unfold readBound
              split <;> omega
      | interrupted => exact ih hk hnow h
      | wouldBlock => exact h
      | failed text => exact h.closeConn hclose _

end EventConn

end Stash
