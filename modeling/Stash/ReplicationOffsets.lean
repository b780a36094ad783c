import Mathlib.Logic.Function.Basic
import Stash.Machine
import Stash.RespValue

/-!
# Replication offsets and WAIT

The master counts the bytes of every payload it propagates, and a replica counts the bytes of the
frames it has processed.  A client's last write is remembered by the master offset at the end of its
payload (`LastWriteReplicationOffset`), and WAIT counts the replicas that have acknowledged at least
that offset.

`propagateToReplicas` takes the offset and writes the payload in two steps, so that the payloads of
several connections can reach a replica in another order than that of their offsets.  In the machine
every payload that is written gets a number, and a frame in the stream of a replica carries the
number and the offset of its payload.
-/

namespace Stash

open DecimalText List Function Machine Value

/-- Whose payload it is: that of a request, which records its offset for the client; that of
`recordExpiredKeys`; or the GETACK of a WAIT. -/
inductive Purpose where
  | request
  | expiry
  | getAck
  deriving DecidableEq, Repr

/-- A payload that has its offset and is not written yet. -/
structure PendingPayload where
  purpose : Purpose
  frames : List Value
  /-- what `AdvanceMasterOffset` returned -/
  endOffset : Nat
  /-- the peers registered when the offset was taken -/
  peers : List Nat

namespace PendingPayload

def size (p : PendingPayload) : Nat :=
  encodedLenAll p.frames

/-- `propagateToReplicas` looks the peers up before it takes the offset, `requestReplicaAcknowledgements`
when it writes. -/
def addresses (p : PendingPayload) (registered : List Nat) (id : Nat) : Prop :=
  id ∈ registered ∧ (p.purpose = .getAck ∨ id ∈ p.peers)

instance (p : PendingPayload) (registered : List Nat) (id : Nat) :
    Decidable (p.addresses registered id) :=
  inferInstanceAs (Decidable (_ ∧ _))

end PendingPayload

/-- The last write of a client. -/
structure LastWrite where
  number : Nat
  frames : List Value
  endOffset : Nat
  peers : List Nat

/-- A frame in the stream of a replica. -/
structure SentFrame where
  /-- the number of its payload -/
  number : Nat
  /-- the end offset of its payload -/
  endOffset : Nat
  frame : Value

/-- The frames of a payload in a stream. -/
def sentFrames (number endOffset : Nat) (frames : List Value) : List SentFrame :=
  frames.map (⟨number, endOffset, ·⟩)

/-- The bytes of a piece of a stream. -/
def streamBytes (frames : List SentFrame) : Nat :=
  encodedLenAll (frames.map (·.frame))

/-- A replica: what it has processed of its stream and what it has not, its `replicaOffset`, the
acknowledgements on their way, and its `AckOffset` at the master. -/
structure Replica where
  /-- the master offset when `registerReplicaPeer` added it -/
  attachedAt : Nat
  processed : List SentFrame
  awaiting : List SentFrame
  offset : Nat
  acks : List Nat
  ackOffset : Nat

namespace Replica

/-- `ReplicaRegistry.Add`, for a server that has just started its link: FULLRESYNC announces the
offset 0. -/
def attached (masterOffset : Nat) : Replica :=
  ⟨masterOffset, [], [], 0, [], 0⟩

/-- All that was written to the replica. -/
def stream (r : Replica) : List SentFrame :=
  r.processed ++ r.awaiting

/-- `WriteEncoded`. -/
def receive (r : Replica) (frames : List SentFrame) : Replica :=
  { r with awaiting := r.awaiting ++ frames }

/-- The loop of `startReplicaLink`: the offset advances by the `EncodedLen` of what was parsed. -/
def process (r : Replica) : Option Replica :=
  match r.awaiting with
  | [] => none
  | e :: rest =>
    some { r with
      processed := r.processed ++ [e]
      awaiting := rest
      offset := r.offset + e.frame.norm.encodedLen }

/-- REPLCONF GETACK at the replica. -/
def acknowledge (r : Replica) : Option Replica :=
  some { r with acks := r.acks ++ [r.offset] }

/-- `UpdateAck`. -/
def receiveAck (r : Replica) : Option Replica :=
  match r.acks with
  | [] => none
  | offset :: rest =>
    some { r with
      acks := rest
      ackOffset := if r.ackOffset < offset then offset else r.ackOffset }

/-- Every frame of the write was written to the replica, once. -/
def Received (r : Replica) (w : LastWrite) : Prop :=
  r.stream.filter (·.number = w.number) = sentFrames w.number w.endOffset w.frames

/-- The replica has processed every frame of the write. -/
def HasProcessed (r : Replica) (w : LastWrite) : Prop :=
  r.processed.filter (·.number = w.number) = sentFrames w.number w.endOffset w.frames

/-- It has processed all that was written to it, and the master has its acknowledgement of it. -/
def CaughtUp (r : Replica) : Prop :=
  r.awaiting = [] ∧ r.ackOffset = r.offset

end Replica

/-- The master, its clients and its replicas. -/
structure Replicating where
  masterOffset : Nat
  /-- how many payloads were written -/
  count : Nat
  /-- the peers registered now -/
  registered : List Nat
  /-- the peers registered at some time; the id of a connection is not used again -/
  joined : List Nat
  replicas : Nat → Replica
  inFlight : Nat → Option PendingPayload
  lastWrite : Nat → Option LastWrite
  /-- whom the WAITs have counted, and for which write -/
  counted : List (LastWrite × Nat)

inductive ReplicationStep where
  /-- a connection, or the sweep, takes the offset of its payload -/
  | advance (actor : Nat) (purpose : Purpose) (frames : List Value)
  /-- it writes the payload to the peers; a request records its offset -/
  | write (actor : Nat)
  | register (id : Nat)
  | leave (id : Nat)
  /-- a replica takes the next frame off its stream -/
  | process (id : Nat)
  /-- a replica sends REPLCONF ACK -/
  | acknowledge (id : Nat)
  /-- the master reads a REPLCONF ACK -/
  | receiveAck (id : Nat)
  /-- a WAIT counts the replicas -/
  | wait (client : Nat)

namespace Replicating

/-- A master that has just started. -/
def started : Replicating :=
  ⟨0, 0, [], [], fun _ => Replica.attached 0, fun _ => none, fun _ => none, []⟩

/-- `AdvanceMasterOffset`. -/
def advance (s : Replicating) (actor : Nat) (purpose : Purpose) (frames : List Value) :
    Option Replicating :=
  match s.inFlight actor, frames.isEmpty with
  | none, false =>
    let endOffset := s.masterOffset + (encodeValues frames).length
    some { s with
      masterOffset := endOffset
      inFlight := update s.inFlight actor
        (some ⟨purpose, frames, endOffset, s.registered⟩) }
  | _, _ => none

/-- `writePropagationPayload`, then `recordClientWriteOffset` for a request. -/
def write (s : Replicating) (actor : Nat) : Option Replicating :=
  (s.inFlight actor).map fun p =>
    { s with
      count := s.count + 1
      inFlight := update s.inFlight actor none
      replicas := fun id =>
        (s.replicas id).receive
          (if p.addresses s.registered id then sentFrames s.count p.endOffset p.frames else [])
      lastWrite :=
        if p.purpose = .request then
          update s.lastWrite actor (some ⟨s.count, p.frames, p.endOffset, p.peers⟩)
        else s.lastWrite }

/-- `registerReplicaPeer`. -/
def register (s : Replicating) (id : Nat) : Option Replicating :=
  if id ∈ s.joined then none
  else
    some { s with
      registered := id :: s.registered
      joined := id :: s.joined
      replicas := update s.replicas id (Replica.attached s.masterOffset) }

/-- Whom `countReplicasAtOrAboveLocked` counts for a client that has written. -/
def atOrAbove (s : Replicating) (w : LastWrite) : List (LastWrite × Nat) :=
  (s.registered.filter fun id => w.endOffset ≤ (s.replicas id).ackOffset).map (w, ·)

/-- `handleWait`, when it counts. -/
def wait (s : Replicating) (client : Nat) : Option Replicating :=
  match s.inFlight client, s.lastWrite client with
  | some _, _ => none
  | none, none => some s
  | none, some w => some { s with counted := s.counted ++ s.atOrAbove w }

def onReplica (s : Replicating) (id : Nat) (f : Replica → Option Replica) : Option Replicating :=
  (f (s.replicas id)).map fun r => { s with replicas := update s.replicas id r }

def step (s : Replicating) : ReplicationStep → Option Replicating
  | .advance actor purpose frames => s.advance actor purpose frames
  | .write actor => s.write actor
  | .register id => s.register id
  | .leave id => some { s with registered := s.registered.filter (· ≠ id) }
  | .process id => s.onReplica id Replica.process
  | .acknowledge id => s.onReplica id Replica.acknowledge
  | .receiveAck id => s.onReplica id Replica.receiveAck
  | .wait client => s.wait client

/-- **What WAIT promises**: every replica it counted has processed the frames of the client's last
write. -/
def WaitSound (s : Replicating) : Prop :=
  ∀ w id, (w, id) ∈ s.counted → (s.replicas id).HasProcessed w

/-- Payloads are written in the order of their offsets, and no replica that WAIT counts joined after
the write it waits for took its offset. -/
def InOffsetOrder (s : Replicating) : ReplicationStep → Prop
  | .write actor => ∀ p, s.inFlight actor = some p →
      ∀ other q, s.inFlight other = some q → p.endOffset ≤ q.endOffset
  | .wait client => ∀ w, s.lastWrite client = some w →
      ∀ id ∈ s.registered, w.endOffset ≤ (s.replicas id).ackOffset → id ∈ w.peers
  | _ => True

/-- Nothing is between its offset and its write. -/
def Quiet (s : Replicating) : Prop :=
  ∀ actor, s.inFlight actor = none

/-- The master handles one request at a time. -/
def OneAtATime (s : Replicating) : ReplicationStep → Prop
  | .advance _ _ _ | .register _ | .wait _ => s.Quiet
  | _ => True

end Replicating

/-! ## Streams -/

theorem encodedLenAll_append (first second : List Value) :
    encodedLenAll (first ++ second) = encodedLenAll first + encodedLenAll second := by
  induction first with
  | nil => simp [encodedLenAll]
  | cons value first ih => simp only [cons_append, encodedLenAll, ih, Nat.add_assoc]

theorem streamBytes_append (first second : List SentFrame) :
    streamBytes (first ++ second) = streamBytes first + streamBytes second := by
  simp [streamBytes, encodedLenAll_append]

theorem streamBytes_cons (e : SentFrame) (frames : List SentFrame) :
    streamBytes (e :: frames) = e.frame.encodedLen + streamBytes frames := rfl

theorem streamBytes_sentFrames (number endOffset : Nat) (frames : List Value) :
    streamBytes (sentFrames number endOffset frames) = encodedLenAll frames := by
  simp [streamBytes, sentFrames, comp_def]

theorem mem_sentFrames {number endOffset : Nat} {frames : List Value} {e : SentFrame}
    (h : e ∈ sentFrames number endOffset frames) : e.number = number ∧ e.endOffset = endOffset := by
  obtain ⟨frame, -, rfl⟩ := mem_map.mp h
  exact ⟨rfl, rfl⟩

theorem filter_sentFrames_self (number endOffset : Nat) (frames : List Value) :
    (sentFrames number endOffset frames).filter (·.number = number) =
      sentFrames number endOffset frames :=
  filter_eq_self.mpr fun _ he => decide_eq_true (mem_sentFrames he).1

/-- In a stream of which `start` bytes came before, every frame ends at or before the offset of its
payload. -/
def Covered (start : Nat) : List SentFrame → Prop
  | [] => True
  | e :: rest => start + e.frame.encodedLen ≤ e.endOffset ∧ Covered (start + e.frame.encodedLen) rest

variable {start : Nat}

theorem covered_append {first second : List SentFrame} :
    Covered start (first ++ second) ↔
      Covered start first ∧ Covered (start + streamBytes first) second := by
  induction first generalizing start with
  | nil => simp [Covered, streamBytes, encodedLenAll]
  | cons e first ih =>
    simp only [cons_append, Covered, ih, streamBytes_cons, and_assoc, Nat.add_assoc]

/-- A frame that is not processed has an offset beyond what was processed. -/
theorem Covered.lt_endOffset {frames : List SentFrame} (h : Covered start frames)
    {e : SentFrame} (he : e ∈ frames) : start < e.endOffset := by
  induction frames generalizing start with
  | nil => simp at he
  | cons first rest ih =>
    obtain ⟨hfirst, hrest⟩ := h
    have hpos := encodedLen_pos first.frame
    rcases mem_cons.mp he with rfl | he
    · omega
    · have := ih hrest he
      omega

/-- A payload whose bytes all fit below its offset keeps the stream covered. -/
theorem covered_sentFrames {number endOffset : Nat} {frames : List Value}
    (h : start + encodedLenAll frames ≤ endOffset) :
    Covered start (sentFrames number endOffset frames) := by
  induction frames generalizing start with
  | nil => trivial
  | cons frame frames ih =>
    simp only [encodedLenAll] at h
    exact ⟨by dsimp only; omega, ih (by dsimp only; omega)⟩

/-! ## Replicas -/

/-- The books of a replica: its offset is what it has processed, and no acknowledgement claims
more. -/
structure Replica.Honest (r : Replica) : Prop where
  offset : r.offset = streamBytes r.processed
  acks : ∀ n ∈ r.acks, n ≤ r.offset
  ackOffset : r.ackOffset ≤ r.offset

theorem Replica.honest_attached (masterOffset : Nat) : (Replica.attached masterOffset).Honest :=
  ⟨rfl, by simp [Replica.attached], Nat.le_refl _⟩

/-- What the replica itself does, or an acknowledgement of it: its stream stays. -/
structure Replica.Handles (r r' : Replica) : Prop where
  stream : r'.stream = r.stream
  attachedAt : r'.attachedAt = r.attachedAt
  honest : r.Honest → r'.Honest
  processed : r.processed <+: r'.processed

namespace Replica

variable {r r' : Replica}

theorem handles_process (h : r.process = some r') : r.Handles r' := by
  unfold process at h
  split at h
  · simp at h
  rename_i e rest hawaiting
  cases h
  refine ⟨by simp [stream, hawaiting], rfl, fun hr => ⟨?_, ?_, ?_⟩, prefix_append _ _⟩
  · simp only [hr.offset, encodedLen_norm, streamBytes_append, streamBytes_cons]
    rfl
  · exact fun n hn => Nat.le_add_right_of_le (hr.acks n hn)
  · exact Nat.le_add_right_of_le hr.ackOffset

theorem handles_acknowledge (h : r.acknowledge = some r') : r.Handles r' := by
  cases h
  refine ⟨rfl, rfl, fun hr => ⟨hr.offset, ?_, hr.ackOffset⟩, prefix_rfl⟩
  intro n hn
  rcases mem_append.mp hn with hn | hn
  · exact hr.acks n hn
  · exact (mem_singleton.mp hn).le

theorem handles_receiveAck (h : r.receiveAck = some r') : r.Handles r' := by
  unfold receiveAck at h
  split at h
  · simp at h
  rename_i offset rest hacks
  cases h
  refine ⟨rfl, rfl, fun hr => ⟨hr.offset, ?_, ?_⟩, prefix_rfl⟩
  · exact fun n hn => hr.acks n (hacks ▸ mem_cons_of_mem _ hn)
  · dsimp only
    split
    · exact hr.acks offset (hacks ▸ mem_cons_self)
    · exact hr.ackOffset

variable {w : LastWrite}

/-- A frame that was found in the stream in full is found in the processed part, once the offset of
its payload is acknowledged. -/
theorem hasProcessed_of_ack (hr : r.Honest) (hcovered : Covered 0 r.stream) (hsent : r.Received w)
    (hack : w.endOffset ≤ r.ackOffset) : r.HasProcessed w := by
  have hawaiting := (covered_append.mp hcovered).2
  rw [Nat.zero_add, ← hr.offset] at hawaiting
  have hnone : r.awaiting.filter (·.number = w.number) = [] := by
    refine filter_eq_nil_iff.mpr fun e he hnum => ?_
    have hmem : e ∈ sentFrames w.number w.endOffset w.frames :=
      Eq.subst (motive := (e ∈ ·)) hsent <| mem_filter.mpr ⟨mem_append_right _ he, hnum⟩
    have hbeyond := hawaiting.lt_endOffset he
    have hle := hr.ackOffset
    rw [(mem_sentFrames hmem).2] at hbeyond
    omega
  rw [Received, stream, filter_append, hnone, append_nil] at hsent
  exact hsent

/-- A write that was processed in full stays so: nothing in the stream follows under its number. -/
theorem HasProcessed.of_handles (h : r.HasProcessed w)
    (hsent : r.Received w) (hhandles : r.Handles r') : r'.HasProcessed w := by
  obtain ⟨more, hmore⟩ := hhandles.processed
  have hall : (r'.processed ++ r'.awaiting).filter (·.number = w.number) =
      r.processed.filter (·.number = w.number) := by
    rw [h, ← hsent, ← hhandles.stream]
    rfl
  rw [← hmore, append_assoc, filter_append] at hall
  have hnil := append_right_eq_self.mp hall
  rw [filter_append, append_eq_nil_iff] at hnil
  rw [HasProcessed, ← hmore, filter_append, hnil.1, append_nil]
  exact h

theorem stream_receive (r : Replica) (frames : List SentFrame) :
    (r.receive frames).stream = r.stream ++ frames := by
  simp [stream, receive]

theorem Honest.receive (h : r.Honest) (frames : List SentFrame) : (r.receive frames).Honest :=
  ⟨h.offset, h.acks, h.ackOffset⟩

theorem Received.of_handles (h : r.Received w) (hhandles : r.Handles r') : r'.Received w := by
  rw [Received, hhandles.stream]
  exact h

theorem Received.receive (h : r.Received w) {frames : List SentFrame}
    (hother : ∀ e ∈ frames, e.number ≠ w.number) : (r.receive frames).Received w := by
  have hnone : frames.filter (·.number = w.number) = [] :=
    filter_eq_nil_iff.mpr fun e he => by simpa using hother e he
  rw [Received, stream_receive, filter_append, hnone, append_nil]
  exact h

end Replica

/-! ## The order of the offsets -/

namespace Replicating

variable {s s' : Replicating}

/-- Every stream holds only bytes below the offsets of the payloads still to come, and every frame
ends at or before the offset of its payload. -/
structure Accounted (s : Replicating) : Prop where
  honest : ∀ id, (s.replicas id).Honest
  covered : ∀ id, Covered 0 (s.replicas id).stream
  bytes : ∀ id, streamBytes (s.replicas id).stream ≤ s.masterOffset
  ends : ∀ {actor p}, s.inFlight actor = some p → p.endOffset ≤ s.masterOffset
  room : ∀ {actor p}, s.inFlight actor = some p →
    ∀ id, streamBytes (s.replicas id).stream + p.size ≤ p.endOffset
  apart : ∀ {actor other p q}, actor ≠ other → s.inFlight actor = some p →
    s.inFlight other = some q →
      p.endOffset + q.size ≤ q.endOffset ∨ q.endOffset + p.size ≤ p.endOffset

/-- Numbers and peers: what is known of the writes that clients can wait for, and of those that
were counted. -/
structure Recorded (s : Replicating) : Prop where
  numbers : ∀ id, ∀ e ∈ (s.replicas id).stream, e.number < s.count
  registered : ∀ id ∈ s.registered, id ∈ s.joined
  flight : ∀ {actor p}, s.inFlight actor = some p → ∀ id ∈ p.peers, id ∈ s.joined
  last : ∀ {client w}, s.lastWrite client = some w → w.number < s.count ∧
    (∀ id ∈ w.peers, id ∈ s.joined) ∧
      ∀ id ∈ w.peers, id ∈ s.registered → (s.replicas id).Received w
  counted : ∀ {w id}, (w, id) ∈ s.counted → w.number < s.count ∧ id ∈ s.joined ∧
    (s.replicas id).Received w ∧ (s.replicas id).HasProcessed w

theorem accounted_started : started.Accounted where
  honest _ := Replica.honest_attached 0
  covered _ := trivial
  bytes _ := Nat.le_refl 0
  ends h := by simp [started] at h
  room h := by simp [started] at h
  apart _ h := by simp [started] at h

theorem recorded_started : started.Recorded where
  numbers _ e he := by simp [started, Replica.attached, Replica.stream] at he
  registered _ h := by simp [started] at h
  flight h := by simp [started] at h
  last h := by simp [started] at h
  counted h := by simp [started] at h

/-! ### Taking an offset -/

variable {frames : List Value} {actor id client : Nat} {purpose : Purpose} {p : PendingPayload}
    {i : ReplicationStep}

theorem advance_spec (h : s.advance actor purpose frames = some s') :
    ∃ p : PendingPayload, p.peers = s.registered ∧ p.endOffset = s.masterOffset + p.size ∧
      s' = { s with
        masterOffset := p.endOffset
        inFlight := update s.inFlight actor (some p) } := by
  unfold advance at h
  split at h
  · cases h
    refine ⟨⟨purpose, frames, s.masterOffset + (encodeValues frames).length, s.registered⟩,
      rfl, ?_, rfl⟩
    exact congrArg _ (length_encodeValues frames)
  · simp at h

theorem Accounted.advance
    (hs : s.Accounted) (h : s.advance actor purpose frames = some s') : s'.Accounted := by
  obtain ⟨p, -, hend, rfl⟩ := advance_spec h
  have hgrow : s.masterOffset ≤ p.endOffset := by omega
  refine ⟨hs.honest, hs.covered, fun id => (hs.bytes id).trans hgrow, ?_, ?_, ?_⟩
  · intro other q hq
    dsimp only at hq ⊢
    by_cases hother : other = actor
    · rw [hother, update_self, Option.some.injEq] at hq
      rw [hq]
    · rw [update_of_ne hother] at hq
      exact (hs.ends hq).trans hgrow
  · intro other q hq id
    dsimp only at hq ⊢
    by_cases hother : other = actor
    · rw [hother, update_self, Option.some.injEq] at hq
      have := hs.bytes id
      rw [← hq]
      omega
    · rw [update_of_ne hother] at hq
      exact hs.room hq id
  · -- the new payload begins where every other one has ended
    have hnew : ∀ {other q}, other ≠ actor → s.inFlight other = some q →
        q.endOffset + p.size ≤ p.endOffset := fun _ hq => by
      have := hs.ends hq
      omega
    intro first second q q' hne hq hq'
    dsimp only at hq hq'
    by_cases hfirst : first = actor
    · rw [hfirst, update_self, Option.some.injEq] at hq
      have hsecond : second ≠ actor := fun hsecond => hne (hfirst.trans hsecond.symm)
      rw [update_of_ne hsecond] at hq'
      exact .inr (hq ▸ hnew hsecond hq')
    · rw [update_of_ne hfirst] at hq
      by_cases hsecond : second = actor
      · rw [hsecond, update_self, Option.some.injEq] at hq'
        exact .inl (hq' ▸ hnew hfirst hq)
      · rw [update_of_ne hsecond] at hq'
        exact hs.apart hne hq hq'

theorem Recorded.advance
    (hs : s.Recorded) (h : s.advance actor purpose frames = some s') : s'.Recorded := by
  obtain ⟨p, hpeers, -, rfl⟩ := advance_spec h
  refine ⟨hs.numbers, hs.registered, ?_, hs.last, hs.counted⟩
  intro other q hq
  dsimp only at hq
  by_cases hother : other = actor
  · rw [hother, update_self, Option.some.injEq] at hq
    rw [← hq, hpeers]
    exact hs.registered
  · rw [update_of_ne hother] at hq
    exact hs.flight hq

/-! ### Writing a payload -/

/-- What a write puts into the stream of a replica. -/
def written (s : Replicating) (p : PendingPayload) (id : Nat) : List SentFrame :=
  if p.addresses s.registered id then sentFrames s.count p.endOffset p.frames else []

theorem streamBytes_written_le (s : Replicating) (p : PendingPayload) (id : Nat) :
    streamBytes (s.written p id) ≤ p.size := by
  unfold written
  split
  · exact (streamBytes_sentFrames _ _ _).le
  · exact Nat.zero_le _

theorem number_of_mem_written {e : SentFrame} (he : e ∈ s.written p id) : e.number = s.count := by
  unfold written at he
  split at he
  · exact (mem_sentFrames he).1
  · simp at he

theorem covered_written {start : Nat} (h : start + p.size ≤ p.endOffset) (id : Nat) :
    Covered start (s.written p id) := by
  unfold written
  split
  · exact covered_sentFrames h
  · trivial

/-- What is in flight after a write was in flight before, with another connection. -/
theorem inFlight_of_written {other : Nat} {q : PendingPayload}
    (h : update s.inFlight actor none other = some q) :
    other ≠ actor ∧ s.inFlight other = some q := by
  have hne : other ≠ actor := by
    rintro rfl
    simp at h
  exact ⟨hne, by rwa [update_of_ne hne] at h⟩

theorem Accounted.write (hs : s.Accounted) (hc : s.InOffsetOrder (.write actor))
    (h : s.write actor = some s') : s'.Accounted := by
  obtain ⟨p, hp, rfl⟩ := Option.map_eq_some_iff.mp h
  have hroom := hs.room hp
  have hadded : ∀ id, streamBytes ((s.replicas id).receive (s.written p id)).stream ≤
      streamBytes (s.replicas id).stream + p.size := fun id => by
    rw [Replica.stream_receive, streamBytes_append]
    exact Nat.add_le_add_left (streamBytes_written_le s p id) _
  refine ⟨fun id => (hs.honest id).receive _, fun id => ?_, fun id => ?_, ?_, ?_, ?_⟩
  · refine (Replica.stream_receive _ _).symm ▸ covered_append.mpr ⟨hs.covered id, ?_⟩
    rw [Nat.zero_add]
    exact covered_written (hroom id) id
  · exact (hadded id).trans ((hroom id).trans (hs.ends hp))
  · exact fun hq => hs.ends (inFlight_of_written hq).2
  · intro other q hq id
    obtain ⟨hne, hq⟩ := inFlight_of_written hq
    -- the other payload has a later offset, so it lies behind this one
    have hlater := hc p hp other q hq
    have hbefore := hs.room hq id
    have hthis := hroom id
    refine (Nat.add_le_add_right (hadded id) q.size).trans ?_
    rcases hs.apart hne hq hp with hapart | hapart <;> omega
  · intro first second q q' hne hq hq'
    exact hs.apart hne (inFlight_of_written hq).2 (inFlight_of_written hq').2

theorem Recorded.write (hs : s.Recorded) (h : s.write actor = some s') : s'.Recorded := by
  obtain ⟨p, hp, rfl⟩ := Option.map_eq_some_iff.mp h
  have hold : ∀ {w : LastWrite}, w.number < s.count → ∀ id, ∀ e ∈ s.written p id,
      e.number ≠ w.number := fun hw id e he => by
    rw [number_of_mem_written he]
    omega
  refine ⟨fun id e he => ?_, hs.registered, fun hq => hs.flight (inFlight_of_written hq).2, ?_, ?_⟩
  · rw [Replica.stream_receive] at he
    dsimp only
    rcases mem_append.mp he with he | he
    · exact Nat.lt_succ_of_lt (hs.numbers id e he)
    · rw [number_of_mem_written he]
      exact Nat.lt_succ_self _
  · intro client w hw
    have hlast : s.lastWrite client = some w → w.number < s.count + 1 ∧
        (∀ id ∈ w.peers, id ∈ s.joined) ∧ ∀ id ∈ w.peers, id ∈ s.registered →
          ((s.replicas id).receive (s.written p id)).Received w := fun hw => by
      obtain ⟨hnumber, hpeers, hreceived⟩ := hs.last hw
      exact ⟨Nat.lt_succ_of_lt hnumber, hpeers, fun id hid hregistered =>
        (hreceived id hid hregistered).receive (hold hnumber id)⟩
    dsimp only at hw
    split at hw
    · by_cases hclient : client = actor
      · rw [hclient, update_self, Option.some.injEq] at hw
        subst hw
        refine ⟨Nat.lt_succ_self _, hs.flight hp, fun id hid hregistered => ?_⟩
        -- the stream held no frame under the new number
        have haddressed : p.addresses s.registered id := ⟨hregistered, .inr hid⟩
        have hfresh : (s.replicas id).stream.filter (·.number = s.count) = [] :=
          filter_eq_nil_iff.mpr fun e he => by
            have := hs.numbers id e he
            simpa using this.ne
        dsimp only
        rw [Replica.Received, Replica.stream_receive, if_pos haddressed, filter_append, hfresh,
          filter_sentFrames_self, nil_append]
      · rw [update_of_ne hclient] at hw
        exact hlast hw
    · exact hlast hw
  · intro w id hcounted
    obtain ⟨hnumber, hjoined, hreceived, hprocessed⟩ := hs.counted hcounted
    exact ⟨Nat.lt_succ_of_lt hnumber, hjoined, hreceived.receive (hold hnumber id), hprocessed⟩

/-! ### The other steps -/

theorem Accounted.register (hs : s.Accounted) (h : s.register id = some s') : s'.Accounted := by
  obtain ⟨-, h⟩ := Option.ite_none_left_eq_some.mp h
  cases h
  refine ⟨fun other => ?_, fun other => ?_, fun other => ?_, hs.ends, fun hp other => ?_, hs.apart⟩
    <;> dsimp only <;> by_cases hother : other = id
  · rw [hother, update_self]
    exact Replica.honest_attached _
  · rw [update_of_ne hother]
    exact hs.honest other
  · rw [hother, update_self]
    trivial
  · rw [update_of_ne hother]
    exact hs.covered other
  · rw [hother, update_self]
    exact Nat.zero_le _
  · rw [update_of_ne hother]
    exact hs.bytes other
  · rw [hother, update_self]
    have hroom := hs.room hp id
    exact (Nat.add_le_add_right (Nat.zero_le _) _).trans hroom
  · rw [update_of_ne hother]
    exact hs.room hp other

theorem Recorded.register (hs : s.Recorded) (h : s.register id = some s') : s'.Recorded := by
  obtain ⟨hfresh, h⟩ := Option.ite_none_left_eq_some.mp h
  cases h
  have hne : ∀ {other}, other ∈ s.joined → other ≠ id := fun hother heq => hfresh (heq ▸ hother)
  have hkeep : ∀ {other}, other ∈ s.joined →
      update s.replicas id (Replica.attached s.masterOffset) other = s.replicas other :=
    fun hother => update_of_ne (hne hother) _ _
  refine ⟨fun other e he => ?_, ?_, fun hp other hother => .tail _ (hs.flight hp other hother), ?_, ?_⟩
  · dsimp only at he
    by_cases hother : other = id
    · rw [hother, update_self] at he
      simp [Replica.stream, Replica.attached] at he
    · rw [update_of_ne hother] at he
      exact hs.numbers other e he
  · intro other hother
    rcases mem_cons.mp hother with rfl | hother
    · exact mem_cons_self
    · exact .tail _ (hs.registered other hother)
  · intro client w hw
    obtain ⟨hnumber, hpeers, hreceived⟩ := hs.last hw
    refine ⟨hnumber, fun other hother => .tail _ (hpeers other hother), ?_⟩
    intro other hother hregistered
    have hjoined := hpeers other hother
    dsimp only
    rw [hkeep hjoined]
    refine hreceived other hother ((mem_cons.mp hregistered).resolve_left (hne hjoined))
  · intro w other hcounted
    obtain ⟨hnumber, hjoined, hrest⟩ := hs.counted hcounted
    refine ⟨hnumber, .tail _ hjoined, ?_⟩
    dsimp only
    rwa [hkeep hjoined]

theorem Recorded.leave (id : Nat) (hs : s.Recorded) :
    Recorded { s with registered := s.registered.filter (· ≠ id) } where
  numbers := hs.numbers
  registered other hother := hs.registered other (mem_filter.mp hother).1
  flight := hs.flight
  last hw := by
    obtain ⟨hnumber, hpeers, hreceived⟩ := hs.last hw
    exact ⟨hnumber, hpeers, fun other hother hregistered =>
      hreceived other hother (mem_filter.mp hregistered).1⟩
  counted := hs.counted

section OnReplica

variable {id : Nat} {f : Replica → Option Replica} (hf : ∀ {r r'}, f r = some r' → r.Handles r')
include hf

/-- A step of one replica: every replica handles its stream, or is left alone. -/
theorem onReplica_spec (h : s.onReplica id f = some s') :
    ∃ replicas : Nat → Replica, (∀ other, (s.replicas other).Handles (replicas other)) ∧
      s' = { s with replicas := replicas } := by
  obtain ⟨r, hr, rfl⟩ := Option.map_eq_some_iff.mp h
  refine ⟨_, fun other => ?_, rfl⟩
  by_cases hother : other = id
  · rw [hother, update_self]
    exact hf hr
  · rw [update_of_ne hother]
    exact ⟨rfl, rfl, fun h => h, prefix_rfl⟩

theorem Accounted.onReplica (hs : s.Accounted) (h : s.onReplica id f = some s') : s'.Accounted := by
  obtain ⟨replicas, hhandles, rfl⟩ := onReplica_spec hf h
  refine ⟨fun other => (hhandles other).honest (hs.honest other), fun other => ?_, fun other => ?_,
    hs.ends, fun hp other => ?_, hs.apart⟩
  · exact (hhandles other).stream ▸ hs.covered other
  · exact (hhandles other).stream ▸ hs.bytes other
  · exact (hhandles other).stream ▸ hs.room hp other

theorem Recorded.onReplica (hs : s.Recorded) (h : s.onReplica id f = some s') : s'.Recorded := by
  obtain ⟨replicas, hhandles, rfl⟩ := onReplica_spec hf h
  refine ⟨fun other => ?_, hs.registered, hs.flight, fun hw => ?_, fun hcounted => ?_⟩
  · exact (hhandles other).stream ▸ hs.numbers other
  · obtain ⟨hnumber, hpeers, hreceived⟩ := hs.last hw
    exact ⟨hnumber, hpeers, fun other hother hregistered =>
      (hreceived other hother hregistered).of_handles (hhandles other)⟩
  · obtain ⟨hnumber, hjoined, hreceived, hprocessed⟩ := hs.counted hcounted
    exact ⟨hnumber, hjoined, hreceived.of_handles (hhandles _),
      hprocessed.of_handles hreceived (hhandles _)⟩

end OnReplica

/-- **Whom WAIT counts**: a replica that was a peer of the write and has acknowledged its offset has
processed its frames. -/
theorem Recorded.wait (hs : s.Recorded) (hbooks : s.Accounted)
    (hc : s.InOffsetOrder (.wait client)) (h : s.wait client = some s') : s'.Recorded := by
  unfold Replicating.wait at h
  split at h
  · simp at h
  · cases h
    exact hs
  rename_i w _ hw
  cases h
  refine ⟨hs.numbers, hs.registered, hs.flight, hs.last, fun hmem => ?_⟩
  rcases mem_append.mp hmem with hmem | hmem
  · exact hs.counted hmem
  obtain ⟨id, hid, heq⟩ := mem_map.mp hmem
  obtain ⟨rfl, rfl⟩ := Prod.mk.inj heq
  obtain ⟨hregistered, hack⟩ := mem_filter.mp hid
  have hack := of_decide_eq_true hack
  obtain ⟨hnumber, hpeers, hreceived⟩ := hs.last hw
  have hpeer := hc w hw id hregistered hack
  have hgot := hreceived id hpeer hregistered
  exact ⟨hnumber, hpeers id hpeer, hgot,
    Replica.hasProcessed_of_ack (hbooks.honest id) (hbooks.covered id) hgot hack⟩

theorem accounted_wait (hs : s.Accounted) (h : s.wait client = some s') : s'.Accounted := by
  unfold Replicating.wait at h
  split at h
  · simp at h
  · cases h
    exact hs
  · cases h
    exact ⟨hs.honest, hs.covered, hs.bytes, hs.ends, hs.room, hs.apart⟩

theorem Accounted.step (hs : s.Accounted) (hc : s.InOffsetOrder i)
    (h : s.step i = some s') : s'.Accounted := by
  cases i with
  | advance actor purpose frames => exact hs.advance h
  | write actor => exact hs.write hc h
  | register id => exact hs.register h
  | leave id =>
    cases h
    exact ⟨hs.honest, hs.covered, hs.bytes, hs.ends, hs.room, hs.apart⟩
  | process id => exact hs.onReplica Replica.handles_process h
  | acknowledge id => exact hs.onReplica Replica.handles_acknowledge h
  | receiveAck id => exact hs.onReplica Replica.handles_receiveAck h
  | wait client => exact accounted_wait hs h

theorem Recorded.step (hs : s.Recorded) (hbooks : s.Accounted)
    (hc : s.InOffsetOrder i) (h : s.step i = some s') : s'.Recorded := by
  cases i with
  | advance actor purpose frames => exact hs.advance h
  | write actor => exact hs.write h
  | register id => exact hs.register h
  | leave id =>
    cases h
    exact hs.leave id
  | process id => exact hs.onReplica Replica.handles_process h
  | acknowledge id => exact hs.onReplica Replica.handles_acknowledge h
  | receiveAck id => exact hs.onReplica Replica.handles_receiveAck h
  | wait client => exact hs.wait hbooks hc h

/-- **WAIT counts only replicas that have the write**, in every run in which payloads are written in
the order of their offsets and no replica reaches the offset of a write it joined after. -/
theorem wait_sound (steps : List ReplicationStep)
    (h : Machine.Heeds step InOffsetOrder steps started) :
    Machine.Always step WaitSound steps started := by
  have hinv : Machine.Always step (fun s => s.Accounted ∧ s.Recorded) steps started :=
    always_of_heeds (fun ⟨hbooks, hrecorded⟩ hc hstep =>
      ⟨hbooks.step hc hstep, hrecorded.step hbooks hc hstep⟩)
      ⟨accounted_started, recorded_started⟩ h
  exact hinv.mono fun s hs w id hmem => (hs.2.counted hmem).2.2.2

/-- The frames of a DEL. -/
def deletion (key : String) : List Value :=
  [commandFrame [ascii "DEL", ascii key]]

theorem wait_sound_one_write :
    Machine.Always step WaitSound
      [.register 7, .advance 0 .request (deletion "a"), .write 0, .process 7, .acknowledge 7,
        .receiveAck 7, .wait 0] started := by
  refine wait_sound _ ?_
  rintro _ ⟨⟩
  refine ⟨trivial, ?_⟩
  rintro _ ⟨⟩
  refine ⟨trivial, ?_⟩
  rintro _ ⟨⟩
  refine ⟨?_, ?_⟩
  · intro p hp other q hq
    by_cases hother : other = 0
    · rw [hother, hp, Option.some.injEq] at hq
      rw [hq]
    · dsimp only at hq
      rw [update_of_ne hother] at hq
      simp [started] at hq
  rintro _ ⟨⟩
  refine ⟨trivial, ?_⟩
  rintro _ ⟨⟩
  refine ⟨trivial, ?_⟩
  rintro _ ⟨⟩
  refine ⟨trivial, ?_⟩
  rintro _ ⟨⟩
  refine ⟨?_, trivial⟩
  rintro w ⟨⟩ id hid -
  exact hid

/-- Two clients take their offsets and write in the other order: the replica acknowledges the bytes
of the second write, and WAIT takes them for the first. -/
def overtaken : List ReplicationStep :=
  [.register 7, .advance 0 .request (deletion "a"), .advance 1 .request (deletion "b"), .write 1, .write 0,
    .process 7, .acknowledge 7, .receiveAck 7, .wait 0]

theorem wait_counts_unprocessed : ¬ Machine.Always step WaitSound overtaken started := by
  intro h
  have hrun : (run step overtaken started).map (fun s => s.counted.map fun counted =>
      (((s.replicas counted.2).processed.filter (·.number = counted.1.number)).length,
        counted.1.frames.length)) = some [(0, 1)] := rfl
  obtain ⟨s, hs, hcounted⟩ := Option.map_eq_some_iff.mp hrun
  obtain ⟨⟨w, id⟩, hmem, hlengths⟩ := mem_map.mp (hcounted ▸ mem_singleton_self (0, 1))
  have hprocessed := h.last hs w id hmem
  obtain ⟨hnone, hframes⟩ := Prod.mk.inj hlengths
  rw [hprocessed, sentFrames, length_map] at hnone
  exact absurd (hnone.symm.trans hframes) (by decide)

/-! ## One request at a time -/

/-- What the master has propagated since a replica attached was written to it, up to the payload
that is still in flight. -/
structure Balanced (s : Replicating) : Prop where
  honest : ∀ id, (s.replicas id).Honest
  single : ∀ {actor other p q}, s.inFlight actor = some p → s.inFlight other = some q →
    actor = other
  quiet : s.Quiet → ∀ id ∈ s.registered,
    (s.replicas id).attachedAt + streamBytes (s.replicas id).stream = s.masterOffset
  flight : ∀ {actor p}, s.inFlight actor = some p → ∀ id ∈ s.registered, id ∈ p.peers ∧
    (s.replicas id).attachedAt + streamBytes (s.replicas id).stream + p.size = s.masterOffset

theorem balanced_started : started.Balanced where
  honest _ := Replica.honest_attached 0
  single h := by simp [started] at h
  quiet _ _ h := by simp [started] at h
  flight h := by simp [started] at h

theorem Quiet.not_inFlight (h : s.Quiet) : s.inFlight actor ≠ some p := by
  simp [h actor]

theorem Balanced.advance (hs : s.Balanced) (hquiet : s.Quiet)
    (h : s.advance actor purpose frames = some s') : s'.Balanced := by
  obtain ⟨p, hpeers, hend, rfl⟩ := advance_spec h
  have honly : ∀ {other q}, update s.inFlight actor (some p) other = some q →
      other = actor ∧ q = p := fun {other q} hq => by
    by_cases hother : other = actor
    · rw [hother, update_self, Option.some.injEq] at hq
      exact ⟨hother, hq.symm⟩
    · rw [update_of_ne hother] at hq
      exact absurd hq hquiet.not_inFlight
  refine ⟨hs.honest, fun hp hq => (honly hp).1.trans (honly hq).1.symm, fun hq => ?_, ?_⟩
  · have := hq actor
    simp at this
  · intro other q hq id hid
    obtain ⟨-, rfl⟩ := honly hq
    refine ⟨hpeers ▸ hid, ?_⟩
    have := hs.quiet hquiet id hid
    dsimp only
    omega

theorem Balanced.write (hs : s.Balanced) (h : s.write actor = some s') : s'.Balanced := by
  obtain ⟨p, hp, rfl⟩ := Option.map_eq_some_iff.mp h
  have hnone : ∀ {other q}, update s.inFlight actor none other ≠ some q := fun hq => by
    obtain ⟨hne, hq⟩ := inFlight_of_written hq
    exact hne (hs.single hq hp)
  refine ⟨fun id => (hs.honest id).receive _, fun hq => absurd hq hnone, fun _ id hid => ?_,
    fun hq => absurd hq hnone⟩
  obtain ⟨hpeer, hbalance⟩ := hs.flight hp id hid
  have haddressed : p.addresses s.registered id := ⟨hid, .inr hpeer⟩
  dsimp only
  rw [if_pos haddressed, Replica.stream_receive, streamBytes_append, streamBytes_sentFrames,
    ← Nat.add_assoc]
  exact hbalance

theorem Balanced.register (hs : s.Balanced) (hquiet : s.Quiet)
    (h : s.register id = some s') : s'.Balanced := by
  obtain ⟨-, h⟩ := Option.ite_none_left_eq_some.mp h
  cases h
  refine ⟨fun other => ?_, hs.single, fun _ other hother => ?_,
    fun hp => absurd hp hquiet.not_inFlight⟩ <;> dsimp only <;> by_cases heq : other = id
  · rw [heq, update_self]
    exact Replica.honest_attached _
  · rw [update_of_ne heq]
    exact hs.honest other
  · rw [heq, update_self]
    rfl
  · rw [update_of_ne heq]
    exact hs.quiet hquiet other ((mem_cons.mp hother).resolve_left heq)

theorem Balanced.onReplica {f : Replica → Option Replica}
    (hf : ∀ {r r'}, f r = some r' → r.Handles r') (hs : s.Balanced)
    (h : s.onReplica id f = some s') : s'.Balanced := by
  obtain ⟨replicas, hhandles, rfl⟩ := onReplica_spec hf h
  refine ⟨fun other => (hhandles other).honest (hs.honest other), hs.single,
    fun hquiet other hother => ?_, fun hp other hother => ?_⟩
  · dsimp only
    rw [(hhandles other).stream, (hhandles other).attachedAt]
    exact hs.quiet hquiet other hother
  · dsimp only
    rw [(hhandles other).stream, (hhandles other).attachedAt]
    exact hs.flight hp other hother

theorem Balanced.step (hs : s.Balanced) (hc : s.OneAtATime i)
    (h : s.step i = some s') : s'.Balanced := by
  cases i with
  | advance actor purpose frames => exact hs.advance hc h
  | write actor => exact hs.write h
  | register id => exact hs.register hc h
  | leave id =>
    cases h
    exact ⟨hs.honest, hs.single, fun hquiet other hother =>
      hs.quiet hquiet other (mem_filter.mp hother).1, fun hp other hother =>
      hs.flight hp other (mem_filter.mp hother).1⟩
  | process id => exact hs.onReplica Replica.handles_process h
  | acknowledge id => exact hs.onReplica Replica.handles_acknowledge h
  | receiveAck id => exact hs.onReplica Replica.handles_receiveAck h
  | wait client =>
    unfold Replicating.step Replicating.wait at h
    dsimp only at h
    split at h
    · simp at h
    · cases h
      exact hs
    · cases h
      exact ⟨hs.honest, hs.single, hs.quiet, hs.flight⟩

theorem mem_atOrAbove {w : LastWrite} :
    (w, id) ∈ s.atOrAbove w ↔ id ∈ s.registered ∧ w.endOffset ≤ (s.replicas id).ackOffset := by
  simp [atOrAbove]

/-- The replica is caught up, and the client's last write was written to it. -/
structure Current (s : Replicating) (id client : Nat) (w : LastWrite) : Prop where
  quiet : s.Quiet
  registered : id ∈ s.registered
  caughtUp : (s.replicas id).CaughtUp
  last : s.lastWrite client = some w
  peer : id ∈ w.peers

/-- A caught-up replica has acknowledged all that was propagated since it attached. -/
theorem Balanced.ackOffset_eq {w : LastWrite} (hs : s.Balanced) (h : s.Current id client w) :
    (s.replicas id).attachedAt + (s.replicas id).ackOffset = s.masterOffset := by
  obtain ⟨hawaiting, hack⟩ := h.caughtUp
  have hstream : (s.replicas id).stream = (s.replicas id).processed := by
    rw [Replica.stream, hawaiting, append_nil]
  rw [hack, (hs.honest id).offset, ← hstream]
  exact hs.quiet h.quiet id h.registered

/-- **WAIT counts a caught-up replica exactly if** no more had been propagated when the replica
attached than has been since the client's last write: the master counts from its own start, the
replica from the time it attached. -/
theorem wait_counts_caught_up_iff (steps : List ReplicationStep)
    (h : Machine.Heeds step OneAtATime steps started) :
    Machine.Always step (fun s => ∀ id client w, s.Current id client w →
      ((w, id) ∈ s.atOrAbove w ↔ (s.replicas id).attachedAt + w.endOffset ≤ s.masterOffset))
      steps started := by
  have hinv : Machine.Always step Balanced steps started :=
    always_of_heeds (fun hs hc hstep => hs.step hc hstep) balanced_started h
  refine hinv.mono fun s hs id client w hcurrent => ?_
  have hack := hs.ackOffset_eq hcurrent
  rw [mem_atOrAbove, and_iff_right hcurrent.registered]
  omega

/-- What the master promises for sequential runs. -/
def CaughtUpCounted (s : Replicating) : Prop :=
  ∀ id client w, s.Current id client w → (w, id) ∈ s.atOrAbove w

/-- A write, then a replica attaches, then the client writes again. -/
def attachedLate : List ReplicationStep :=
  [.advance 0 .request (deletion "a"), .write 0, .register 7, .advance 0 .request (deletion "b"),
    .write 0, .process 7, .acknowledge 7, .receiveAck 7]

theorem quiet_written {inFlight : Nat → Option PendingPayload}
    (h : ∀ other, inFlight other = none) (other : Nat) :
    update (update inFlight actor (some p)) actor none other = none := by
  by_cases hother : other = actor
  · rw [hother, update_self]
  · rw [update_of_ne hother, update_of_ne hother, h]

theorem heeds_attachedLate : Machine.Heeds step OneAtATime attachedLate started := by
  have hquiet : started.Quiet := fun _ => rfl
  rintro _ ⟨⟩
  refine ⟨hquiet, ?_⟩
  rintro _ ⟨⟩
  refine ⟨trivial, ?_⟩
  rintro _ ⟨⟩
  refine ⟨quiet_written hquiet, ?_⟩
  rintro _ ⟨⟩
  refine ⟨quiet_written hquiet, ?_⟩
  rintro _ ⟨⟩
  refine ⟨trivial, ?_⟩
  rintro _ ⟨⟩
  refine ⟨trivial, ?_⟩
  rintro _ ⟨⟩
  refine ⟨trivial, ?_⟩
  rintro _ ⟨⟩
  exact ⟨trivial, trivial⟩

theorem wait_counts_caught_up_attachedLate :
    Machine.Always step (fun s => ∀ id client w, s.Current id client w →
      ((w, id) ∈ s.atOrAbove w ↔ (s.replicas id).attachedAt + w.endOffset ≤ s.masterOffset))
      attachedLate started :=
  wait_counts_caught_up_iff _ heeds_attachedLate

/-- The replica has everything, and its acknowledgement stays behind the offset of the write. -/
theorem caught_up_not_counted : Machine.Heeds step OneAtATime attachedLate started ∧
    ¬ Machine.Always step CaughtUpCounted attachedLate started := by
  refine ⟨heeds_attachedLate, fun h => ?_⟩
  obtain ⟨s, hs, hend⟩ : ∃ s, run step attachedLate started = some s ∧
      (∀ actor, s.inFlight actor = none) ∧ s.registered = [7] ∧
      (s.replicas 7).CaughtUp ∧ (s.replicas 7).ackOffset = 20 ∧
      (s.lastWrite 0).map (fun w => (w.endOffset, w.peers)) = some (40, [7]) :=
    ⟨_, rfl, quiet_written (quiet_written fun _ => rfl), rfl, ⟨rfl, rfl⟩, rfl, rfl⟩
  obtain ⟨hquiet, hregistered, hcaughtUp, hack, hlast⟩ := hend
  obtain ⟨w, hw, hoffset⟩ := Option.map_eq_some_iff.mp hlast
  obtain ⟨hoffset, hpeers⟩ := Prod.mk.inj hoffset
  have hcounted := h.last hs 7 0 w
    ⟨hquiet, by simp [hregistered], hcaughtUp, hw, by simp [hpeers]⟩
  have hle := (mem_atOrAbove.mp hcounted).2
  omega

end Replicating

end Stash
