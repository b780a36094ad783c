import Stash.DecodeStable

/-!
# The connection state machine

`ConnMachine` drives one client connection without blocking.  Bytes are fed to it as they arrive;
complete requests become pending events, in order; each event is executed in its turn and its
responses are appended to one write buffer, which is flushed as far as the socket takes it.

On a protocol error the machine queues the error reply as the last event and is *closing*: it takes
no more input, and closes once all events are executed and all output is flushed.

Of the client state bound to a machine only the detaching at the end is used there, which is left
out.  A response is given as the value, or as none when its type is one the encoder refuses.
-/

namespace Stash

open DecimalText

/-! ## Error texts -/

/-- The text in front of a wrapped error. -/
def ErrorContext.text : ErrorContext → Bytes
  | .parseInteger => ascii "protocol: parse integer: "
  | .bulkLength => ascii "protocol: parse bulk string length: "
  | .bulkPayload => ascii "protocol: read bulk string payload: "
  | .bulkTerminator => ascii "protocol: bulk string payload missing CRLF terminator: "
  | .arrayLength => ascii "protocol: parse array length: "
  | .arrayElement index => ascii "protocol: parse array element " ++ formatInt index ++ ascii ": "

/-- `string(prefix)`: a byte is taken as the code of a character. -/
def characterOf (marker : UInt8) : Bytes :=
  (String.singleton (Char.ofNat marker.toNat)).toUTF8.toList

/-- `Error()`; `quote` is the verb `%q`. -/
def ParseError.text (quote : Bytes → Bytes) : ParseError → Bytes
  | .eof => ascii "EOF"
  | .unexpectedEOF => ascii "unexpected EOF"
  | .missingCRLF => ascii "protocol: line missing CRLF terminator"
  | .invalidSyntax => ascii "invalid syntax"
  | .valueRange => ascii "value out of range"
  | .lineExceedsLimit =>
    ascii "protocol: line exceeds " ++ formatInt maxLineLength ++ ascii " byte limit"
  | .unsupportedPrefix marker =>
    ascii "protocol: unsupported frame prefix " ++ quote (characterOf marker)
  | .invalidBooleanMarker line => ascii "protocol: invalid boolean marker " ++ quote line
  | .invalidNullPayload line => ascii "protocol: invalid null payload " ++ quote line
  | .invalidBulkLength length => ascii "protocol: invalid bulk string length " ++ formatInt length
  | .bulkLengthExceedsLimit length =>
    ascii "protocol: bulk string length " ++ formatInt length ++ ascii " exceeds " ++
      formatInt maxBulkStringLength ++ ascii " byte limit"
  | .invalidArrayLength count => ascii "protocol: invalid array length " ++ formatInt count
  | .arrayLengthExceedsLimit count =>
    ascii "protocol: array length " ++ formatInt count ++ ascii " exceeds " ++
      formatInt maxArrayElements ++ ascii " element limit"
  | .nestingExceedsLimit =>
    ascii "protocol: array nesting exceeds " ++ formatInt maxNestingDepth ++ ascii " levels"
  | .wrap context inner => context.text ++ inner.text quote

/-- What ends the input of a connection. -/
inductive ProtoError where
  | malformed (err : ParseError)
  | frameExceedsLimit (limit : Nat)
  deriving DecidableEq, Repr

def ProtoError.text (quote : Bytes → Bytes) : ProtoError → Bytes
  | .malformed err => err.text quote
  | .frameExceedsLimit limit =>
    ascii "protocol: frame exceeds " ++ formatInt limit ++ ascii " byte read-buffer limit"

/-- The errors of a machine and of what it calls: the runner and the socket. -/
inductive ConnError where
  | machineClosed
  | proto (err : ProtoError)
  | outputExceedsLimit (limit : Nat)
  | unsupportedValueType
  | wouldBlock
  | external (text : String)
  deriving DecidableEq, Repr

/-! ## The machine -/

/-- `ConnMachineState`. -/
inductive ConnState where
  | active
  | closing
  | closed
  deriving DecidableEq, Repr

/-- `connEvent`. -/
inductive ConnEvent where
  | request (value : Value)
  | protoErr (err : ProtoError)

/-- A response of a command; none if the encoder does not know its type. -/
abbrev Response := Option Value

/-- `ConnCommandRunner`. -/
abbrev ConnCommandRunner := Value → Except ConnError (List Response)

def defaultMaxReadBuffer : Nat := 512 * 1024 * 1024
def defaultMaxWriteBuffer : Nat := 512 * 1024 * 1024

structure ConnMachine where
  state : ConnState := .active
  err : Option ConnError := none
  readBuf : Bytes := []
  resumeAt : Nat := 0
  maxReadBuffer : Nat := defaultMaxReadBuffer
  maxWriteBuffer : Nat := defaultMaxWriteBuffer
  pending : List ConnEvent := []
  writeBuf : Bytes := []
  writeOff : Nat := 0

namespace ConnMachine

/-- `NewConnMachine`, with any limits. -/
def new (maxReadBuffer maxWriteBuffer : Nat) : ConnMachine where
  maxReadBuffer := maxReadBuffer
  maxWriteBuffer := maxWriteBuffer

/-- `PendingRequests`. -/
def pendingRequests (m : ConnMachine) : Nat :=
  m.pending.countP fun
    | .request _ => true
    | .protoErr _ => false

/-- `writeBuf[writeOff:]`. -/
def output (m : ConnMachine) : Bytes :=
  m.writeBuf.drop m.writeOff

/-- `PendingOutputBytes`. -/
def pendingOutputBytes (m : ConnMachine) : Nat :=
  m.writeBuf.length - m.writeOff

/-- `HasPendingOutput`. -/
def hasPendingOutput (m : ConnMachine) : Bool :=
  0 < m.pendingOutputBytes

theorem length_output (m : ConnMachine) : m.output.length = m.pendingOutputBytes :=
  List.length_drop

/-! ### Input -/

/-- The loop of `Feed`: the pending events, the bytes consumed, and the error of `Decode` that ended
it.  A value takes at least one byte, so the fuel is the length of the buffer. -/
def feedLoop : Nat → Bytes → Nat → List ConnEvent → List ConnEvent × Nat × DecodeError
  | 0, _, consumed, pending => (pending, consumed, .incomplete none)
  | fuel + 1, readBuf, consumed, pending =>
    match decode (readBuf.drop consumed) with
    | .ok (value, n) => feedLoop fuel readBuf (consumed + n) (pending ++ [.request value])
    | .error err => (pending, consumed, err)

/-- `enterProtocolError`. -/
def enterProtocolError (m : ConnMachine) (err : ProtoError) : ConnMachine :=
  { m with
    pending := m.pending ++ [.protoErr err]
    err := some (.proto err)
    state := .closing
    readBuf := []
    resumeAt := 0 }

/-- The end of `Feed`: the limit on the frame that is left in the buffer. -/
def checkReadBuffer (m : ConnMachine) : ConnMachine :=
  if m.maxReadBuffer < m.readBuf.length ∨ m.maxReadBuffer < m.resumeAt then
    m.enterProtocolError (.frameExceedsLimit m.maxReadBuffer)
  else m

/-- `Feed`, and the error it returns. -/
def feed (m : ConnMachine) (data : Bytes) : ConnMachine × Option ConnError :=
  if m.state ≠ .active then (m, some .machineClosed)
  else
    let m := { m with readBuf := m.readBuf ++ data }
    if 0 < m.resumeAt ∧ m.readBuf.length < m.resumeAt then (m, none)
    else
      match feedLoop (m.readBuf.length + 1) m.readBuf 0 m.pending with
      | (pending, _, .permanent err) =>
        ({ m with pending := pending }.enterProtocolError (.malformed err), none)
      | (pending, consumed, .incomplete need) =>
        ({ m with
            pending := pending
            resumeAt := need.getD 0
            readBuf := m.readBuf.drop consumed }.checkReadBuffer, none)

/-! ### Output -/

/-- `Close`. -/
def close (m : ConnMachine) (err : Option ConnError) : ConnMachine :=
  if m.state = .closed then m
  else
    { m with
      err := m.err.or err
      state := .closed
      readBuf := []
      resumeAt := 0
      pending := []
      writeBuf := []
      writeOff := 0 }

/-- `compactWriteBuf`. -/
def compactWriteBuf (m : ConnMachine) : ConnMachine :=
  if m.writeOff = 0 ∨ m.writeOff < m.writeBuf.length / 2 then m
  else { m with writeBuf := m.writeBuf.drop m.writeOff, writeOff := 0 }

/-- `AppendValues`. -/
def appendValues (dst : Bytes) : List Response → Except ConnError Bytes
  | [] => .ok dst
  | none :: _ => .error .unsupportedValueType
  | some value :: values => appendValues (dst ++ value.encode) values

/-- `bufferResponses`. -/
def bufferResponses (m : ConnMachine) (values : List Response) : ConnMachine × Option ConnError :=
  if values = [] then (m, none)
  else
    let m := m.compactWriteBuf
    match appendValues m.writeBuf values with
    | .error err => (m, some err)
    | .ok encoded =>
      let m := { m with writeBuf := encoded }
      if m.maxWriteBuffer < m.pendingOutputBytes then
        (m, some (.outputExceedsLimit m.maxWriteBuffer))
      else (m, none)

/-- The reply to a protocol error. -/
def protoReply (quote : Bytes → Bytes) (err : ProtoError) : Value :=
  .errorValue (ascii "ERR " ++ err.text quote)

/-- The responses to an event. -/
def respond (quote : Bytes → Bytes) (run : ConnCommandRunner) :
    ConnEvent → Except ConnError (List Response)
  | .protoErr err => .ok [some (protoReply quote err)]
  | .request value => run value

/-- `ProcessNext`: whether more events are pending, or the error. -/
def processNext (quote : Bytes → Bytes) (m : ConnMachine) (run : ConnCommandRunner) :
    ConnMachine × Except ConnError Bool :=
  if m.state = .closed then (m, .error .machineClosed)
  else
    match m.pending with
    | [] => (m, .ok false)
    | event :: pending =>
      let m := { m with pending := pending }
      match respond quote run event with
      | .error err => (m.close (some err), .error err)
      | .ok responses =>
        match m.bufferResponses responses with
        | (m, some err) => (m.close (some err), .error err)
        | (m, none) => (m, .ok !m.pending.isEmpty)

/-- What a writer answers: how many bytes it takes, as far as it is given so many, and an error. -/
structure WriteAnswer where
  n : Nat
  err : Option ConnError

/-- What `Flush` does after the write. -/
def finishClosing (m : ConnMachine) : ConnMachine :=
  if m.state = .closing ∧ m.hasPendingOutput = false ∧ m.pending = [] then m.close none else m

/-- `writeOff` is moved over what was written. -/
def written (m : ConnMachine) (n : Nat) : ConnMachine :=
  if m.writeBuf.length ≤ m.writeOff + n then { m with writeBuf := [], writeOff := 0 }
  else { m with writeOff := m.writeOff + n }

/-- `Flush`: the machine, the bytes that the writer took, and the error. -/
def flush (m : ConnMachine) (w : Bytes → WriteAnswer) : ConnMachine × Bytes × Option ConnError :=
  if m.state = .closed then (m, [], some .machineClosed)
  else if m.writeOff < m.writeBuf.length then
    let answer := w m.output
    let taken := m.output.take answer.n
    match answer.err with
    | some err => (m.written taken.length, taken, some err)
    | none => ((m.written taken.length).finishClosing, taken, none)
  else (m.finishClosing, [], none)

/-- `BufferEncoded`. -/
def bufferEncoded (m : ConnMachine) (payload : Bytes) : ConnMachine × Option ConnError :=
  if m.state = .closed then (m, some .machineClosed)
  else if payload = [] then (m, none)
  else if m.maxWriteBuffer < m.pendingOutputBytes + payload.length then
    (m, some (.outputExceedsLimit m.maxWriteBuffer))
  else
    let m := m.compactWriteBuf
    ({ m with writeBuf := m.writeBuf ++ payload }, none)

end ConnMachine

end Stash
