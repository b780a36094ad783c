import Stash.Keyspace
import Stash.Command

/-!
# The command handlers that use the store

A handler runs one storage operation, or a few reads, with arguments its validator accepted.  Of
the readings of the clock a command takes, the first is that of its validator and the second that
of the handler itself (only SET uses them, for its expiry); the storage operation gets the later
ones.
-/

namespace Stash

open DecimalText GoMap Value

/-- What a handler answers when it succeeds, and what the executor needs to know about the run. -/
structure Reply where
  response : Value
  /-- the key whose watchers are told, if it was written -/
  touched : List Bytes
  /-- the keys evicted to make room -/
  evicted : List Bytes
  /-- the deadline a SET stored -/
  setExpiryMillis : Int

/-- A response and nothing else. -/
def Reply.plain (response : Value) : Reply :=
  ⟨response, [], [], 0⟩

/-- A store after a handler, with the answer. -/
abbrev Handled := Store × Except Failure Reply

namespace Handlers

def okResponse : Value := .simpleString (ascii "OK")
def integerResponse (n : Int) : Value := .integer (Int64.ofInt n)
def nullBulk : Value := .bulkString [] true

/-- `listResponse`. -/
def listResponse (values : List Bytes) : Value :=
  .array (values.map bulk) false

/-- The index panic that no validated request reaches. -/
def outOfRange : CommandError := .other "runtime error: index out of range"

/-- An error that leaves the store alone. -/
def refused (s : Store) (err : CommandError) : Handled :=
  (s, .error (.refused err))

/-- Pass on what a storage operation returned. -/
def answer {α : Type} (result : Store × Except StorageError α) (reply : α → Reply) : Handled :=
  match result with
  | (s, .ok a) => (s, .ok (reply a))
  | (s, .error err) => refused s (storageCommandError err)

/-- Go on with parsed arguments. -/
def parsed {α : Type} (s : Store) (arguments : Except CommandError α) (run : α → Handled) :
    Handled :=
  match arguments with
  | .ok a => run a
  | .error err => refused s err

/-- `recordWriteEffects`: the key is touched and the evicted keys are recorded. -/
def written {α : Type} (key : Bytes) (response : α → Value) (result : α × List Bytes) : Reply :=
  ⟨response result.1, [key], result.2, 0⟩

/-- The key is touched when something was taken from it. -/
def taken (key : Bytes) (changed : Bool) (response : Value) : Reply :=
  ⟨response, if changed then [key] else [], [], 0⟩

/-! ## Strings -/

def handleSet (rt : Runtime) (s : Store) (args : List Bytes) (env : Env) : Handled :=
  match args with
  | key :: value :: options =>
    match parseExpiryMillis rt options (env.clock 1) with
    | .error err => refused s (setExpiryError err)
    | .ok expiresAt =>
      answer (s.set key value expiresAt (env.after 2)) fun result =>
        ⟨okResponse, [key], result.2, expiresAt⟩
  | _ => refused s outOfRange

def handleGet (s : Store) (args : List Bytes) (env : Env) : Handled :=
  match args with
  | [key] =>
    answer (s.get key (env.after 2)) fun value =>
      .plain ((value.map bulk).getD nullBulk)
  | _ => refused s (.wrongNumberOfArguments "GET")

def handleSetBit (s : Store) (args : List Bytes) (env : Env) : Handled :=
  match args with
  | key :: offset :: bit :: _ =>
    parsed s (parseBitmapOffsetArgument offset) fun offset =>
      parsed s (parseBitValueArgument bit) fun bit =>
        answer (s.setBit key offset bit (env.after 2)) (written key integerResponse)
  | _ => refused s outOfRange

def handleGetBit (s : Store) (args : List Bytes) (env : Env) : Handled :=
  match args with
  | key :: offset :: _ =>
    parsed s (parseBitmapOffsetArgument offset) fun offset =>
      answer (s.getBit key offset (env.after 2)) fun bit => .plain (integerResponse (bit.getD 0))
  | _ => refused s outOfRange

def handleBitCount (s : Store) (args : List Bytes) (env : Env) : Handled :=
  match args with
  | [key, start, stop] =>
    parsed s (parseRangeBounds start stop) fun range =>
      answer (s.bitCount key (some range) (env.after 2)) fun count =>
        .plain (integerResponse (count.getD 0))
  | key :: _ =>
    answer (s.bitCount key none (env.after 2)) fun count =>
      .plain (integerResponse (count.getD 0))
  | _ => refused s outOfRange

def handlePFAdd (s : Store) (args : List Bytes) (env : Env) : Handled :=
  match args with
  | key :: elements => answer (s.pfAdd key elements (env.after 2)) (written key integerResponse)
  | [] => refused s (.wrongNumberOfArguments "PFADD")

def handlePFCount (rt : Runtime) (s : Store) (args : List Bytes) (env : Env) : Handled :=
  match args with
  | [] => refused s (.wrongNumberOfArguments "PFCOUNT")
  | keys =>
    answer (s.pfCount keys (env.after 2)) fun registers =>
      .plain (integerResponse (rt.hyperLogLogEstimate registers))

def handleDel (s : Store) (args : List Bytes) (env : Env) : Handled :=
  match args with
  | [] => refused s (.wrongNumberOfArguments "DEL")
  | [key] =>
    let (s', removed) := s.delete key (env.after 2)
    (s', .ok (taken key removed (integerResponse (if removed then 1 else 0))))
  | keys =>
    let (s', removed) := s.deleteMany keys (env.after 2)
    (s', .ok ⟨integerResponse removed.length, removed, [], 0⟩)

def handleIncr (s : Store) (args : List Bytes) (env : Env) : Handled :=
  match args with
  | [key] => answer (s.increment key (env.after 2)) (written key integerResponse)
  | _ => refused s (.wrongNumberOfArguments "INCR")

/-! ## Lists -/

/-- `handleLPush` and `handleRPush`. -/
def handlePush (c : CommandName) (left : Bool) (s : Store) (args : List Bytes) (env : Env) :
    Handled :=
  match args with
  | key :: value :: values =>
    answer (s.pushList key left (value :: values) (env.after 2))
      (written key fun length => integerResponse length)
  | _ => refused s (.wrongNumberOfArguments c.label)

def handleLPush : Store → List Bytes → Env → Handled := handlePush .lPush true
def handleRPush : Store → List Bytes → Env → Handled := handlePush .rPush false

def handleLRange (s : Store) (args : List Bytes) (env : Env) : Handled :=
  match args with
  | key :: start :: stop :: _ =>
    parsed s (parseRangeBounds start stop) fun range =>
      answer (s.listRange key range.1 range.2 (env.after 2)) fun values =>
        .plain (listResponse (values.getD []))
  | _ => refused s outOfRange

/-- `popList`. -/
def popList (c : CommandName) (left : Bool) (s : Store) (args : List Bytes) (env : Env) : Handled :=
  match args with
  | [key] =>
    answer (s.pop key left (env.after 2)) fun value =>
      taken key value.isSome ((value.map bulk).getD nullBulk)
  | [key, count] =>
    parsed s (parseCountArgument count) fun count =>
      answer (s.popN key left count (env.after 2)) fun values =>
        taken key (0 < count && !(values.getD []).isEmpty)
          ((values.map listResponse).getD (.array [] true))
  | _ => refused s (.wrongNumberOfArguments c.label)

def handleLPop : Store → List Bytes → Env → Handled := popList .lPop true
def handleRPop : Store → List Bytes → Env → Handled := popList .rPop false

/-- `handleBLPop`, up to its first wait: with nothing to pop it either refuses to block, on the
event loop, or waits until a push or the end of the connection.  A run that is woken by a push
starts again from here, so a run that ends without a value ended with the connection. -/
def handleBLPop (inline : Bool) (s : Store) (args : List Bytes) (env : Env) : Handled :=
  match args with
  | [key] =>
    match s.pop key true (env.after 2) with
    | (s', .error err) => refused s' (storageCommandError err)
    | (s', .ok (some value)) => (s', .ok (taken key true (.array [.bulk key, .bulk value] false)))
    | (s', .ok none) =>
      (s', .error (if inline then .refused (.blockingNotSupported "BLPOP") else .canceled))
  | _ => refused s (.wrongNumberOfArguments "BLPOP")

/-! ## Sorted sets -/

def handleZAdd (rt : Runtime) (s : Store) (args : List Bytes) (env : Env) : Handled :=
  match args with
  | key :: rest =>
    parsed s (parseScoreMembers rt rest) fun entries =>
      answer (s.zAdd key entries (env.after 2)) (written key fun added => integerResponse added)
  | [] => refused s outOfRange

/-- `zsetResponse`. -/
def zsetResponse (rt : Runtime) (entries : List ZSetEntry) (withScores : Bool) : Value :=
  .array (entries.flatMap fun entry =>
    if withScores then [.text entry.member, .text (rt.formatFloat entry.score.bits)]
    else [.text entry.member]) false

def handleZRange (rt : Runtime) (s : Store) (args : List Bytes) (env : Env) : Handled :=
  match args with
  | key :: start :: stop :: rest =>
    if rest = [] ∨ rest.any fun option => rt.equalFold option (ascii "WITHSCORES") then
      parsed s (parseRangeBounds start stop) fun range =>
        answer (s.zRange key range.1 range.2 (env.after 2)) fun entries =>
          .plain (zsetResponse rt (entries.getD []) (rest ≠ []))
    else refused s .syntaxError
  | _ => refused s outOfRange

def handleGeoAdd (rt : Runtime) (s : Store) (args : List Bytes) (env : Env) : Handled :=
  match args with
  | key :: rest =>
    parsed s (parseGeoMembers rt rest) fun entries =>
      answer (s.zAdd key entries (env.after 2)) (written key fun added => integerResponse added)
  | [] => refused s outOfRange

def handleGeoDist (rt : Runtime) (s : Store) (args : List Bytes) (env : Env) : Handled :=
  match args with
  | key :: first :: second :: rest =>
    parsed s (parseGeoUnitArgument rt (rest.headD (ascii "m"))) fun unit =>
      answer (s.zScores key [first, second] (env.after 2)) fun scores =>
        .plain <| match scores with
          | some [some a, some b] => .text (rt.geoDistance a b unit)
          | _ => nullBulk
  | _ => refused s outOfRange

def handleGeoRadius (rt : Runtime) (s : Store) (args : List Bytes) (env : Env) : Handled :=
  match args with
  | [key, longitude, latitude, radius, unit] =>
    parsed s (parseGeoCoordinates rt longitude latitude) fun centre =>
      parsed s (parseGeoRadiusArgument rt radius) fun radius =>
        parsed s (parseGeoUnitArgument rt unit) fun unit =>
          answer (s.zRangeWithin key (rt.geoWithin centre.1 centre.2 radius unit) (env.after 2))
            fun entries => .plain (zsetResponse rt (entries.getD []) false)
  | _ => refused s outOfRange

/-! ## Streams -/

def handleXAdd (s : Store) (args : List Bytes) (env : Env) : Handled :=
  match args with
  | key :: id :: values => answer (s.xAdd key id values (env.after 2)) (written key text)
  | _ => refused s outOfRange

/-- `streamReadResponse`. -/
def streamReadResponse (key : Bytes) (entries : List StreamEntry) : Value :=
  if entries = [] then .array [] false
  else .array [.array [.bulk key, .array (entries.map fun entry =>
    .array [.text entry.id, listResponse entry.values] false) false] false] false

def handleXRead (rt : Runtime) (s : Store) (args : List Bytes) (env : Env) : Handled :=
  match args with
  | [streams, key, id] =>
    if rt.equalFold streams (ascii "STREAMS") then
      answer (s.xRead key id (env.after 2)) fun entries =>
        .plain (streamReadResponse key (entries.getD []))
    else refused s .syntaxError
  | [] => refused s (.wrongNumberOfArguments "XREAD")
  | _ => refused s .syntaxError

/-! ## Hashes and sets -/

def handleHSet (s : Store) (args : List Bytes) (env : Env) : Handled :=
  match args with
  | key :: rest =>
    answer (s.hSet key (fieldValuePairs rest) (env.after 2))
      (written key fun added => integerResponse added)
  | [] => refused s outOfRange

def handleHGet (s : Store) (args : List Bytes) (env : Env) : Handled :=
  match args with
  | [key, field] =>
    answer (s.hGet key field (env.after 2)) fun value =>
      .plain ((value.join.map bulk).getD nullBulk)
  | _ => refused s (.wrongNumberOfArguments "HGET")

def handleHDel (s : Store) (args : List Bytes) (env : Env) : Handled :=
  match args with
  | key :: field :: fields =>
    answer (s.hDel key (field :: fields) (env.after 2)) fun removed =>
      taken key (0 < removed) (integerResponse removed)
  | _ => refused s (.wrongNumberOfArguments "HDEL")

def handleHGetAll (s : Store) (args : List Bytes) (env : Env) : Handled :=
  match args with
  | [key] =>
    answer (s.hGetAll key (env.after 2)) fun entries =>
      .plain (listResponse ((entries.getD []).flatMap fun entry => [entry.1, entry.2]))
  | _ => refused s (.wrongNumberOfArguments "HGETALL")

def handleSAdd (s : Store) (args : List Bytes) (env : Env) : Handled :=
  match args with
  | key :: member :: members =>
    answer (s.sAdd key (member :: members) (env.after 2))
      (written key fun added => integerResponse added)
  | _ => refused s (.wrongNumberOfArguments "SADD")

def handleSIsMember (s : Store) (args : List Bytes) (env : Env) : Handled :=
  match args with
  | [key, member] =>
    answer (s.sIsMember key member (env.after 2)) fun found =>
      .plain (integerResponse (if found.getD false then 1 else 0))
  | _ => refused s (.wrongNumberOfArguments "SISMEMBER")

def handleSRem (s : Store) (args : List Bytes) (env : Env) : Handled :=
  match args with
  | key :: member :: members =>
    answer (s.sRem key (member :: members) (env.after 2)) fun removed =>
      taken key (0 < removed) (integerResponse removed)
  | _ => refused s (.wrongNumberOfArguments "SREM")

def handleSMembers (s : Store) (args : List Bytes) (env : Env) : Handled :=
  match args with
  | [key] =>
    answer (s.sMembers key (env.after 2)) fun members => .plain (listResponse (members.getD []))
  | _ => refused s (.wrongNumberOfArguments "SMEMBERS")

end Handlers

open Handlers in
/-- The handlers of the command table that use the store. -/
def storeHandler (rt : Runtime) (inline : Bool) :
    CommandName → Option (Store → List Bytes → Env → Handled)
  | .set => some (handleSet rt)
  | .get => some handleGet
  | .setBit => some handleSetBit
  | .getBit => some handleGetBit
  | .bitCount => some handleBitCount
  | .pfAdd => some handlePFAdd
  | .pfCount => some (handlePFCount rt)
  | .del => some handleDel
  | .incr => some handleIncr
  | .lPush => some handleLPush
  | .rPush => some handleRPush
  | .lRange => some handleLRange
  | .lPop => some handleLPop
  | .rPop => some handleRPop
  | .blPop => some (handleBLPop inline)
  | .zAdd => some (handleZAdd rt)
  | .zRange => some (handleZRange rt)
  | .geoAdd => some (handleGeoAdd rt)
  | .geoDist => some (handleGeoDist rt)
  | .geoRadius => some (handleGeoRadius rt)
  | .xAdd => some handleXAdd
  | .xRead => some (handleXRead rt)
  | .hSet => some handleHSet
  | .hGet => some handleHGet
  | .hDel => some handleHDel
  | .hGetAll => some handleHGetAll
  | .sAdd => some handleSAdd
  | .sIsMember => some handleSIsMember
  | .sRem => some handleSRem
  | .sMembers => some handleSMembers
  | _ => none

end Stash
