import Stash.StringValue
import Stash.StreamValue

/-!
# Commands

A client request is a name and its arguments.  The names are those of the command table; each
command has a validator, which runs when the request arrives or is queued and again when it is
executed, and the flags that say whether a successful run is sent to replicas and to the
append-only file.
-/

namespace Stash

open DecimalText Value

/-- `Request`. -/
structure Request where
  name : Bytes
  args : List Bytes
  deriving DecidableEq, Repr

/-- An error a command answers with. -/
inductive CommandError where
  /-- a message under its wire code -/
  | resp (code message : String)
  /-- an error without a code of its own -/
  | other (message : String)
  /-- `ErrUnknownCommand`, with the name as it is quoted -/
  | unknown (quoted : Bytes)
  deriving DecidableEq, Repr

/-- How a command that was started fails. -/
inductive Failure where
  | refused (err : CommandError)
  /-- the context of the connection is done -/
  | canceled
  deriving DecidableEq, Repr

namespace CommandError

def syntaxError : CommandError := .resp "ERR" "syntax error"
def execWithoutMulti : CommandError := .resp "ERR" "EXEC without MULTI"
def discardWithoutMulti : CommandError := .resp "ERR" "DISCARD without MULTI"
def multiNested : CommandError := .resp "ERR" "MULTI calls can not be nested"
def watchInsideMulti : CommandError := .resp "ERR" "WATCH inside MULTI is not allowed"
def execAbort : CommandError :=
  .resp "EXECABORT" "Transaction discarded because of previous errors."
def invalidExpireTime : CommandError := .resp "ERR" "invalid expire time in 'SET' command"
def invalidStreamID : CommandError :=
  .resp "ERR" "invalid stream ID specified as stream command argument"
def streamIDTooSmall : CommandError :=
  .resp "ERR" "The ID specified in XADD is equal or smaller than the target stream top item"
def valueNotInteger : CommandError := .resp "ERR" "value is not an integer or out of range"
def valueNotFloat : CommandError := .resp "ERR" "value is not a valid float"
def wrongType : CommandError :=
  .resp "WRONGTYPE" "Operation against a key holding the wrong kind of value"
def notHyperLogLog : CommandError :=
  .resp "WRONGTYPE" "Key is not a valid HyperLogLog string value."
def noAuth : CommandError := .resp "NOAUTH" "Authentication required."
def wrongPass : CommandError :=
  .resp "WRONGPASS" "invalid username-password pair or user is disabled."
def authNotConfigured : CommandError :=
  .resp "ERR" ("AUTH <password> called without any password configured for the default user. " ++
    "Are you sure your configuration is correct")
def subscribedModeOnly : CommandError :=
  .resp "ERR" "only PING, SUBSCRIBE, and UNSUBSCRIBE are allowed in this context"
def subscribeInsideMulti : CommandError :=
  .resp "ERR" "SUBSCRIBE and UNSUBSCRIBE inside MULTI are not allowed"
def monitorModeOnly : CommandError := .resp "ERR" "only PING is allowed in this context"
def outOfMemory : CommandError :=
  .resp "OOM" "command not allowed when used memory > 'maxmemory'"
def negativeCount : CommandError := .resp "ERR" "value is out of range, must be positive"
def unsupportedUnit : CommandError :=
  .resp "ERR" "unsupported unit provided. please use m, km, ft, mi"

/-- `wrongNumberOfArgumentsError`. -/
def wrongNumberOfArguments (command : String) : CommandError :=
  .resp "ERR" ("wrong number of arguments for '" ++ command ++ "' command")

/-- `blockingNotSupportedError`. -/
def blockingNotSupported (command : String) : CommandError :=
  .resp "ERR" (command ++
    " would block; blocking commands are not supported with event-loop networking")

/-- `responseErrorValue`. -/
def response : CommandError → Value
  | .resp code message => .errorValue (ascii (code ++ " " ++ message))
  | .other message => .errorValue (ascii ("ERR " ++ message))
  | .unknown quoted => .errorValue (ascii "ERR unknown command " ++ quoted)

end CommandError

/-- `storageCommandError`. -/
def storageCommandError : StorageError → CommandError
  | .wrongType => .wrongType
  | .notHyperLogLog => .notHyperLogLog
  | .valueNotInteger => .valueNotInteger
  | .syntaxError => .syntaxError
  | .invalidStreamID => .invalidStreamID
  | .streamIDTooSmall => .streamIDTooSmall
  | .memoryLimitExceeded => .outOfMemory
  | .invalidExpireTime => .other StorageError.invalidExpireTime.error

/-- The names of the command table. -/
inductive CommandName where
  | subscribe | unsubscribe | watch | multi | exec | discard
  | ping | auth | echo
  | set | get | setBit | getBit | bitCount | pfAdd | pfCount | del | incr
  | lPush | rPush | lRange | lPop | rPop | blPop
  | zAdd | zRange | geoAdd | geoDist | geoRadius
  | xAdd | xRead
  | hSet | hGet | hDel | hGetAll
  | sAdd | sIsMember | sRem | sMembers
  | publish | replConf | pSync | wait | bgRewriteAOF | info | slowlog | monitor
  deriving DecidableEq, Repr

namespace CommandName

def label : CommandName → String
  | subscribe => "SUBSCRIBE" | unsubscribe => "UNSUBSCRIBE" | watch => "WATCH"
  | multi => "MULTI" | exec => "EXEC" | discard => "DISCARD"
  | ping => "PING" | auth => "AUTH" | echo => "ECHO"
  | set => "SET" | get => "GET" | setBit => "SETBIT" | getBit => "GETBIT"
  | bitCount => "BITCOUNT" | pfAdd => "PFADD" | pfCount => "PFCOUNT" | del => "DEL"
  | incr => "INCR" | lPush => "LPUSH" | rPush => "RPUSH" | lRange => "LRANGE"
  | lPop => "LPOP" | rPop => "RPOP" | blPop => "BLPOP"
  | zAdd => "ZADD" | zRange => "ZRANGE" | geoAdd => "GEOADD" | geoDist => "GEODIST"
  | geoRadius => "GEORADIUS" | xAdd => "XADD" | xRead => "XREAD"
  | hSet => "HSET" | hGet => "HGET" | hDel => "HDEL" | hGetAll => "HGETALL"
  | sAdd => "SADD" | sIsMember => "SISMEMBER" | sRem => "SREM" | sMembers => "SMEMBERS"
  | publish => "PUBLISH" | replConf => "REPLCONF" | pSync => "PSYNC" | wait => "WAIT"
  | bgRewriteAOF => "BGREWRITEAOF" | info => "INFO" | slowlog => "SLOWLOG"
  | monitor => "MONITOR"

def all : List CommandName :=
  [subscribe, unsubscribe, watch, multi, exec, discard, ping, auth, echo, set, get, setBit, getBit,
    bitCount, pfAdd, pfCount, del, incr, lPush, rPush, lRange, lPop, rPop, blPop, zAdd, zRange,
    geoAdd, geoDist, geoRadius, xAdd, xRead, hSet, hGet, hDel, hGetAll, sAdd, sIsMember, sRem,
    sMembers, publish, replConf, pSync, wait, bgRewriteAOF, info, slowlog, monitor]

/-- The bytes of the name. -/
def text (c : CommandName) : Bytes :=
  ascii c.label

/-- The lookup in the command table. -/
def ofText (name : Bytes) : Option CommandName :=
  all.find? fun c => c.text = name

/-- `transactionControl`: not queued inside MULTI. -/
def transactionControl : CommandName → Bool
  | subscribe | unsubscribe | watch | multi | exec | discard | monitor => true
  | _ => false

/-- `durable`: a successful run is logged. -/
def durable : CommandName → Bool
  | set | setBit | pfAdd | del | incr | lPush | rPush | lPop | rPop | zAdd | geoAdd | xAdd
  | hSet | hDel | sAdd | sRem => true
  | _ => false

/-- `propagates`: a successful run is sent to the replicas. -/
def propagates : CommandName → Bool
  | set | setBit | pfAdd | del | incr | lPush | rPush | lPop | rPop | zAdd | geoAdd
  | hSet | hDel | sAdd | sRem | publish => true
  | _ => false

theorem ofText_text (c : CommandName) : ofText c.text = some c := by
  cases c <;> decide

theorem text_of_ofText {name : Bytes} {c : CommandName} (h : ofText name = some c) :
    name = c.text := by
  have := List.find?_some h
  exact (of_decide_eq_true this).symm

theorem toUpper_text (rt : Runtime) (c : CommandName) : rt.toUpper c.text = c.text := by
  refine rt.toUpper_of_upper ?_ ?_ <;> cases c <;> decide

end CommandName

/-! ## Decoding -/

/-- The loop of `DecodeRequest` over the arguments. -/
def decodeArgs : List Value → Except CommandError (List Bytes)
  | [] => .ok []
  | value :: values =>
    match value.bytes with
    | .error err => .error (.resp "ERR" err.error)
    | .ok arg => (decodeArgs values).map fun args => arg :: args

/-- `DecodeRequest`. -/
def decodeRequest (rt : Runtime) (value : Value) : Except CommandError Request :=
  match value with
  | .array [] false => .error (.resp "ERR" "expected array with at least one element")
  | .array (first :: rest) false =>
    match first.bytes with
    | .error err => .error (.resp "ERR" err.error)
    | .ok name => (decodeArgs rest).map fun args => ⟨rt.toUpper name, args⟩
  | _ => .error (.resp "ERR" "expected non-null RESP array")

theorem decodeArgs_bulk (args : List Bytes) : decodeArgs (args.map bulk) = .ok args := by
  induction args with
  | nil => rfl
  | cons arg args ih => simp only [List.map_cons, decodeArgs, bulk, bytes, ih]; rfl

/-- A command frame decodes to its command. -/
theorem decode_command (rt : Runtime) (c : CommandName) (args : List Bytes) :
    decodeRequest rt (commandFrame (c.text :: args)) = .ok ⟨c.text, args⟩ := by
  simp only [commandFrame, List.map_cons, decodeRequest, bytes_bulk, decodeArgs_bulk, Except.map,
    c.toUpper_text rt]

/-! ## Arguments -/

/-- `parseIntegerArgument`. -/
def parseIntegerArgument (raw : Bytes) : Except CommandError Int :=
  match readInt64 raw with
  | some value => .ok value
  | none => .error .valueNotInteger

/-- `parseRangeBounds`. -/
def parseRangeBounds (start stop : Bytes) : Except CommandError (Int × Int) := do
  let start ← parseIntegerArgument start
  let stop ← parseIntegerArgument stop
  return (start, stop)

/-- `parseBitmapOffsetArgument`. -/
def parseBitmapOffsetArgument (raw : Bytes) : Except CommandError Int := do
  let offset ← parseIntegerArgument raw
  if offset < 0 ∨ maxBitmapOffset < offset then .error .valueNotInteger else .ok offset

/-- `parseBitValueArgument`. -/
def parseBitValueArgument (raw : Bytes) : Except CommandError Int := do
  let bit ← parseIntegerArgument raw
  if bit ≠ 0 ∧ bit ≠ 1 then .error .valueNotInteger else .ok bit

/-- The count of LPOP and RPOP. -/
def parseCountArgument (raw : Bytes) : Except CommandError Int := do
  let count ← parseIntegerArgument raw
  if count < 0 then .error .negativeCount else .ok count

/-- `parseFloatArgument`: neither a NaN nor an infinity is accepted. -/
def parseFloatArgument (rt : Runtime) (raw : Bytes) : Except CommandError Score :=
  match rt.parseFloat raw with
  | none => .error .valueNotFloat
  | some bits =>
    if h : bits.toNat % 2 ^ 63 < 2047 * 2 ^ 52 then .ok ⟨bits, Nat.le_of_lt h⟩
    else .error .valueNotFloat

/-- The pairs of ZADD, a score before its member. -/
def parseScoreMembers (rt : Runtime) : List Bytes → Except CommandError (List ZSetEntry)
  | score :: member :: rest => do
    let score ← parseFloatArgument rt score
    let entries ← parseScoreMembers rt rest
    return ⟨member, score⟩ :: entries
  | _ => .ok []

def geoLongitudeMax : Score := ⟨0x4066800000000000, by decide⟩
def geoLongitudeMin : Score := ⟨0xC066800000000000, by decide⟩
def geoLatitudeMax : Score := ⟨0x40554345B1A57F00, by decide⟩
def geoLatitudeMin : Score := ⟨0xC0554345B1A57F00, by decide⟩

/-- `parseGeoCoordinates`. -/
def parseGeoCoordinates (rt : Runtime) (rawLongitude rawLatitude : Bytes) :
    Except CommandError (Score × Score) := do
  let longitude ← parseFloatArgument rt rawLongitude
  let latitude ← parseFloatArgument rt rawLatitude
  if longitude.key < geoLongitudeMin.key ∨ geoLongitudeMax.key < longitude.key ∨
      latitude.key < geoLatitudeMin.key ∨ geoLatitudeMax.key < latitude.key then
    .error (.resp "ERR"
      ("invalid longitude,latitude pair " ++ rt.formatCoordinates longitude latitude))
  else .ok (longitude, latitude)

/-- The triples of GEOADD: longitude, latitude, member. -/
def parseGeoMembers (rt : Runtime) : List Bytes → Except CommandError (List ZSetEntry)
  | longitude :: latitude :: member :: rest => do
    let position ← parseGeoCoordinates rt longitude latitude
    let entries ← parseGeoMembers rt rest
    return ⟨member, rt.geoScore position.1 position.2⟩ :: entries
  | _ => .ok []

/-- `parseGeoRadiusArgument`. -/
def parseGeoRadiusArgument (rt : Runtime) (raw : Bytes) : Except CommandError Score := do
  let radius ← parseFloatArgument rt raw
  if radius.key < 0 then .error (.resp "ERR" "radius cannot be negative") else .ok radius

/-- `parseGeoUnitArgument`: the unit in small letters. -/
def parseGeoUnitArgument (rt : Runtime) (raw : Bytes) : Except CommandError Bytes :=
  let unit := rt.toLower raw
  if unit ∈ [ascii "m", ascii "km", ascii "mi", ascii "ft"] then .ok unit
  else .error .unsupportedUnit

/-- The pairs of HSET. -/
def fieldValuePairs : List Bytes → List HashFieldValue
  | field :: value :: rest => ⟨field, value⟩ :: fieldValuePairs rest
  | _ => []

/-! ## Validators -/

/-- `exactArgsValidator`. -/
def exactArgs (c : CommandName) (count : Nat) (args : List Bytes) : Except CommandError Unit :=
  if args.length ≠ count then .error (.wrongNumberOfArguments c.label) else .ok ()

/-- `maxArgsValidator`. -/
def maxArgs (c : CommandName) (max : Nat) (args : List Bytes) : Except CommandError Unit :=
  if max < args.length then .error (.wrongNumberOfArguments c.label) else .ok ()

/-- `minArgsValidator`. -/
def minArgs (c : CommandName) (min : Nat) (args : List Bytes) : Except CommandError Unit :=
  if args.length < min then .error (.wrongNumberOfArguments c.label) else .ok ()

/-- `validateNonEmptyPubSubChannels`. -/
def validateChannels (channels : List Bytes) : Except CommandError Unit :=
  if [] ∈ channels then .error .syntaxError else .ok ()

/-- What SET answers to a refused expiry. -/
def setExpiryError : StorageError → CommandError
  | .syntaxError => .syntaxError
  | .invalidExpireTime => .invalidExpireTime
  | err => .other err.error

/-- `validateSetRequest`. -/
def validateSetRequest (rt : Runtime) (args : List Bytes) (now : Instant) :
    Except CommandError Unit :=
  match args with
  | _ :: _ :: options =>
    match parseExpiryMillis rt options now with
    | .error err => .error (setExpiryError err)
    | .ok _ => .ok ()
  | _ => .error (.wrongNumberOfArguments "SET")

/-- `validateSetBitRequest`. -/
def validateSetBitRequest : List Bytes → Except CommandError Unit
  | [_, offset, bit] => do
    let _ ← parseBitmapOffsetArgument offset
    let _ ← parseBitValueArgument bit
  | _ => .error (.wrongNumberOfArguments "SETBIT")

/-- `validateGetBitRequest`. -/
def validateGetBitRequest : List Bytes → Except CommandError Unit
  | [_, offset] => do
    let _ ← parseBitmapOffsetArgument offset
  | _ => .error (.wrongNumberOfArguments "GETBIT")

/-- `validateBitCountRequest`. -/
def validateBitCountRequest : List Bytes → Except CommandError Unit
  | [_] => .ok ()
  | [_, start, stop] => do
    let _ ← parseRangeBounds start stop
  | _ => .error (.wrongNumberOfArguments "BITCOUNT")

/-- `validateLRangeRequest`. -/
def validateLRangeRequest : List Bytes → Except CommandError Unit
  | [_, start, stop] => do
    let _ ← parseRangeBounds start stop
  | _ => .error (.wrongNumberOfArguments "LRANGE")

/-- `validatePopRequest`. -/
def validatePopRequest (c : CommandName) : List Bytes → Except CommandError Unit
  | [_] => .ok ()
  | [_, count] => do
    let _ ← parseCountArgument count
  | _ => .error (.wrongNumberOfArguments c.label)

/-- `validateZAddRequest`. -/
def validateZAddRequest (rt : Runtime) (args : List Bytes) : Except CommandError Unit :=
  if args.length < 3 ∨ args.length % 2 = 0 then .error (.wrongNumberOfArguments "ZADD")
  else do
    let _ ← parseScoreMembers rt args.tail

/-- `validateZRangeRequest`. -/
def validateZRangeRequest (rt : Runtime) : List Bytes → Except CommandError Unit
  | [_, start, stop] => do
    let _ ← parseRangeBounds start stop
  | [_, start, stop, option] =>
    if rt.equalFold option (ascii "WITHSCORES") then do
      let _ ← parseRangeBounds start stop
    else .error .syntaxError
  | _ => .error (.wrongNumberOfArguments "ZRANGE")

/-- `validateGeoAddRequest`. -/
def validateGeoAddRequest (rt : Runtime) (args : List Bytes) : Except CommandError Unit :=
  if args.length < 4 ∨ (args.length - 1) % 3 ≠ 0 then .error (.wrongNumberOfArguments "GEOADD")
  else do
    let _ ← parseGeoMembers rt args.tail

/-- `validateGeoDistRequest`. -/
def validateGeoDistRequest (rt : Runtime) : List Bytes → Except CommandError Unit
  | [_, _, _] => .ok ()
  | [_, _, _, unit] => do
    let _ ← parseGeoUnitArgument rt unit
  | _ => .error (.wrongNumberOfArguments "GEODIST")

/-- `validateGeoRadiusRequest`. -/
def validateGeoRadiusRequest (rt : Runtime) : List Bytes → Except CommandError Unit
  | [_, longitude, latitude, radius, unit] => do
    let _ ← parseGeoCoordinates rt longitude latitude
    let _ ← parseGeoRadiusArgument rt radius
    let _ ← parseGeoUnitArgument rt unit
  | args =>
    if args.length < 5 then .error (.wrongNumberOfArguments "GEORADIUS") else .error .syntaxError

/-- `validateXAddRequest`. -/
def validateXAddRequest (args : List Bytes) : Except CommandError Unit :=
  match args with
  | _ :: id :: _ :: _ :: _ =>
    if args.length % 2 ≠ 0 then .error (.wrongNumberOfArguments "XADD")
    else (validateXAddID id).mapError storageCommandError
  | _ => .error (.wrongNumberOfArguments "XADD")

/-- `validateXReadRequest`. -/
def validateXReadRequest (rt : Runtime) : List Bytes → Except CommandError Unit
  | [] => .error (.wrongNumberOfArguments "XREAD")
  | [streams, _, id] =>
    if rt.equalFold streams (ascii "STREAMS") then (validateXReadID id).mapError storageCommandError
    else .error .syntaxError
  | _ => .error .syntaxError

/-- `validateHSetRequest`. -/
def validateHSetRequest (args : List Bytes) : Except CommandError Unit :=
  if args.length < 3 ∨ args.length % 2 = 0 then .error (.wrongNumberOfArguments "HSET")
  else .ok ()

/-- `validatePublishRequest`. -/
def validatePublishRequest : List Bytes → Except CommandError Unit
  | [channel, _] => validateChannels [channel]
  | _ => .error (.wrongNumberOfArguments "PUBLISH")

/-- `validateReplConfRequest`. -/
def validateReplConfRequest (rt : Runtime) : List Bytes → Except CommandError Unit
  | [subcommand, argument] =>
    let subcommand := rt.toUpper subcommand
    let accepted : Bool :=
      if subcommand = ascii "LISTENING-PORT" then
        (readInt64 argument).any fun port => 1 ≤ port && port ≤ 65535
      else if subcommand = ascii "GETACK" then argument = ascii "*"
      else if subcommand = ascii "ACK" then (readInt64 argument).any fun offset => 0 ≤ offset
      else false
    if accepted then .ok () else .error .syntaxError
  | _ => .error (.wrongNumberOfArguments "REPLCONF")

/-- `validatePSyncRequest`. -/
def validatePSyncRequest : List Bytes → Except CommandError Unit
  | [id, offset] =>
    if id = ascii "?" ∧ offset = ascii "-1" then .ok () else .error .syntaxError
  | _ => .error (.wrongNumberOfArguments "PSYNC")

/-- `validateWaitRequest`. -/
def validateWaitRequest : List Bytes → Except CommandError Unit
  | [replicas, timeout] => do
    let replicas ← parseIntegerArgument replicas
    if replicas < 0 then .error .valueNotInteger
    let timeout ← parseIntegerArgument timeout
    if timeout < 0 then .error .valueNotInteger
  | _ => .error (.wrongNumberOfArguments "WAIT")

/-- `validateSlowlogRequest`. -/
def validateSlowlogRequest (rt : Runtime) : List Bytes → Except CommandError Unit
  | [] => .error (.wrongNumberOfArguments "SLOWLOG")
  | subcommand :: rest =>
    let subcommand := rt.toUpper subcommand
    if subcommand = ascii "GET" then
      match rest with
      | [] => .ok ()
      | [limit] =>
        if (readInt64 limit).any fun limit => 0 ≤ limit then .ok () else .error .valueNotInteger
      | _ => .error (.wrongNumberOfArguments "SLOWLOG")
    else if subcommand = ascii "LEN" ∨ subcommand = ascii "RESET" then
      if rest = [] then .ok () else .error (.wrongNumberOfArguments "SLOWLOG")
    else .error .syntaxError

/-- The validator of a command.  Only that of SET reads the clock. -/
def CommandName.validate (rt : Runtime) (c : CommandName) (args : List Bytes) (now : Instant) :
    Except CommandError Unit :=
  match c with
  | subscribe => do
    minArgs c 1 args
    validateChannels args
  | unsubscribe => validateChannels args
  | watch => minArgs c 1 args
  | multi | exec | discard | bgRewriteAOF | monitor => exactArgs c 0 args
  | ping | info => maxArgs c 1 args
  | auth | echo | get | incr | blPop | hGetAll | sMembers => exactArgs c 1 args
  | hGet | sIsMember => exactArgs c 2 args
  | pfAdd | pfCount | del => minArgs c 1 args
  | lPush | rPush | hDel | sAdd | sRem => minArgs c 2 args
  | set => validateSetRequest rt args now
  | setBit => validateSetBitRequest args
  | getBit => validateGetBitRequest args
  | bitCount => validateBitCountRequest args
  | lRange => validateLRangeRequest args
  | lPop | rPop => validatePopRequest c args
  | zAdd => validateZAddRequest rt args
  | zRange => validateZRangeRequest rt args
  | geoAdd => validateGeoAddRequest rt args
  | geoDist => validateGeoDistRequest rt args
  | geoRadius => validateGeoRadiusRequest rt args
  | xAdd => validateXAddRequest args
  | xRead => validateXReadRequest rt args
  | hSet => validateHSetRequest args
  | publish => validatePublishRequest args
  | replConf => validateReplConfRequest rt args
  | pSync => validatePSyncRequest args
  | wait => validateWaitRequest args
  | slowlog => validateSlowlogRequest rt args

/-! ## Frames -/

/-- `propagationFrame`: the request as it stands. -/
def propagationFrame (request : Request) : Value :=
  .array (text request.name :: request.args.map bulk) false

/-- `rewriteSetFrame`: a SET with a deadline is logged with that deadline. -/
def rewriteSetFrame (request : Request) (setExpiryMillis : Int) : Option Value :=
  match request.args with
  | key :: value :: _ =>
    if 0 < setExpiryMillis then
      some (.array [.text request.name, .bulk key, .bulk value, .text (ascii "PXAT"),
        .bulk (formatInt setExpiryMillis)] false)
    else none
  | _ => none

/-- `DeleteFrame`. -/
def deleteFrame (keys : List Bytes) : Value :=
  .array (text (ascii "DEL") :: keys.map bulk) false

end Stash
