import Stash.Handlers

/-!
# The executor

A request is checked against the mode of its connection, queued when the connection is inside a
transaction, and otherwise looked up, validated and run.  A run returns its responses and the
frames for the replicas and for the append-only file; `EXEC` runs the queued commands one after the
other and collects theirs.

Every command run gets surroundings of its own (`Env`): a request that is not `EXEC` takes the
first of those it is given, and the queued commands of an `EXEC` the ones after it.
-/

namespace Stash

open DecimalText GoMap Handlers

/-- `isTransactionControlCommand`. -/
def isTransactionControlCommand (name : Bytes) : Bool :=
  match CommandName.ofText name with
  | some c => c.transactionControl
  | none => false

/-- `QueuedCommand`: commands that control a transaction are never queued. -/
structure QueuedCommand where
  request : Request
  plain : isTransactionControlCommand request.name = false

/-- `ClientState`: the connection-scoped state the executor reads and writes. -/
structure ClientState where
  authenticated : Bool
  monitoring : Bool
  replica : Bool
  inTransaction : Bool
  txFailed : Bool
  txDirty : Bool
  txQueue : List QueuedCommand
  watchedKeys : List Bytes
  subscribedChannels : List Bytes

namespace ClientState

/-- A connection that was just accepted. -/
def fresh : ClientState :=
  ⟨false, false, false, false, false, false, [], [], []⟩

def beginTransaction (c : ClientState) : ClientState :=
  { c with inTransaction := true, txDirty := false, txQueue := [] }

def resetTransaction (c : ClientState) : ClientState :=
  { c with inTransaction := false, txFailed := false, txDirty := false, txQueue := [] }

/-- `DrainTransaction`, the state it leaves. -/
def drainTransaction (c : ClientState) : ClientState :=
  { c with inTransaction := false, txDirty := false, txQueue := [] }

def unwatchAll (c : ClientState) : ClientState :=
  { c with watchedKeys := [], txFailed := false }

/-- `Watch` skips the empty key. -/
def watchKeys (c : ClientState) (keys : List Bytes) : ClientState :=
  { c with watchedKeys := c.watchedKeys ++ keys.filter fun key => key ≠ [] }

def subscribeChannel (c : ClientState) (channel : Bytes) : ClientState :=
  if channel ∈ c.subscribedChannels then c
  else { c with subscribedChannels := c.subscribedChannels ++ [channel] }

def unsubscribeChannel (c : ClientState) (channel : Bytes) : ClientState :=
  { c with subscribedChannels := c.subscribedChannels.filter fun x => x ≠ channel }

def isSubscribed (c : ClientState) : Bool :=
  !c.subscribedChannels.isEmpty

end ClientState

/-- The store and the connections. -/
structure World where
  store : Store
  clients : Nat → ClientState

/-- The context a request comes with. -/
structure Context where
  /-- the connection, if there is one -/
  client : Option Nat
  /-- from the replication stream or the append-only file -/
  origin : Bool
  /-- on the event loop -/
  inline : Bool

/-- The context of a client's request in the default networking mode. -/
def Context.ofClient (id : Nat) : Context := ⟨some id, false, false⟩

/-- The context in which logged or replicated frames are executed. -/
def Context.replay : Context := ⟨none, true, false⟩

/-- `ExecuteResult`. -/
structure ExecuteResult where
  responses : List Value
  propagation : List Value
  durability : List Value
  upstreamReplies : List Value
  registerReplica : Bool

/-- Responses and nothing else. -/
def ExecuteResult.ofResponses (responses : List Value) : ExecuteResult :=
  ⟨responses, [], [], [], false⟩

/-- `Executor`: its settings, and what the parts of the server outside this model answer at a
moment. -/
structure Executor where
  rt : Runtime
  requirePass : Bytes
  /-- whether there is a monitor registry -/
  monitorRegistry : Bool
  /-- empty without replication state -/
  masterReplicationID : Bytes
  replicaOffset : Env → Int
  /-- the subscribers a published message reached -/
  deliverPubSubMessage : Env → Bytes → Bytes → Nat
  /-- the replicas that acknowledged in time, or the end of the connection -/
  waitForReplicas : Env → Bool → List Bytes → Except Failure Nat
  aofRewrite : Env → Except CommandError Unit
  info : Env → Bytes → Bytes
  slowlog : Env → List Bytes → Value

/-- An executor without a password and with silent surroundings. -/
def Executor.quiet : Executor where
  rt := .ofBits
  requirePass := []
  monitorRegistry := false
  masterReplicationID := []
  replicaOffset _ := 0
  deliverPubSubMessage _ _ _ := 0
  waitForReplicas _ _ _ := .ok 0
  aofRewrite _ := .ok ()
  info _ _ := []
  slowlog _ _ := .null

/-- A server that was just started: no keys, and every connection new. -/
def World.initial : World :=
  ⟨Store.newStore fun _ => 0, fun _ => .fresh⟩

/-- A second into 1970. -/
def firstSecond : Instant :=
  .ofMillis 1000 (by decide)

namespace World

def updateClient (w : World) (id : Nat) (f : ClientState → ClientState) : World :=
  { w with clients := Function.update w.clients id (f (w.clients id)) }

/-- `touchWatchKeys`: transactions of the clients that watch one of the keys fail. -/
def touchWatchKeys (w : World) (keys : List Bytes) : World :=
  { w with clients := fun id =>
      if (w.clients id).watchedKeys.any fun key => keys.contains key then
        { w.clients id with txFailed := true }
      else w.clients id }

/-- The client of a context. -/
def clientState (w : World) (ctx : Context) : Option ClientState :=
  ctx.client.map w.clients

def updateContext (w : World) (ctx : Context) (f : ClientState → ClientState) : World :=
  match ctx.client with
  | none => w
  | some id => w.updateClient id f

end World

namespace Executor

variable (x : Executor)

/-! ## Checks before a request is run -/

def isAllowedSubscribedModeCommand (name : Bytes) : Bool :=
  name = CommandName.ping.text || name = CommandName.subscribe.text ||
    name = CommandName.unsubscribe.text

def isAllowedMonitoringModeCommand (name : Bytes) : Bool :=
  name = CommandName.ping.text

def validateSubscriptionContext (ctx : Context) (request : Request) (w : World) :
    Except CommandError Unit :=
  match w.clientState ctx with
  | none => .ok ()
  | some state =>
    if state.isSubscribed && !isAllowedSubscribedModeCommand request.name then
      .error .subscribedModeOnly
    else if state.monitoring && !isAllowedMonitoringModeCommand request.name then
      .error .monitorModeOnly
    else .ok ()

def isAllowedUnauthenticatedCommand (ctx : Context) (request : Request) : Bool :=
  ctx.origin || request.name = CommandName.auth.text || request.name = CommandName.ping.text

def validateAuthContext (ctx : Context) (request : Request) (w : World) :
    Except CommandError Unit :=
  if x.requirePass = [] then .ok ()
  else
    match w.clientState ctx with
    | none => .ok ()
    | some state =>
      if state.authenticated || isAllowedUnauthenticatedCommand ctx request then .ok ()
      else .error .noAuth

/-- The checks on the mode and the authentication of the connection. -/
def validateContext (ctx : Context) (request : Request) (w : World) : Except CommandError Unit := do
  validateSubscriptionContext ctx request w
  x.validateAuthContext ctx request w

/-- `ErrUnknownCommand`. -/
def unknownCommand (name : Bytes) : CommandError :=
  .unknown (x.rt.quote name)

/-- The command of a request, looked up and validated: `validateQueueableRequest`, and the same
steps of `executeRequestDetailed`. -/
def lookup (request : Request) (now : Instant) : Except CommandError CommandName :=
  match CommandName.ofText request.name with
  | none => .error (x.unknownCommand request.name)
  | some c => (c.validate x.rt request.args now).map fun _ => c

/-! ## Commands of the connection -/

def clientStateUnavailable : CommandError := .other "client state unavailable"

/-- `pubSubAckResponse`. -/
def pubSubAckResponse (kind : String) (channel : Value) (count : Nat) : Value :=
  .array [.text (ascii kind), channel, integerResponse count] false

/-- The loops of `handleSubscribe` and `handleUnsubscribe`. -/
def acknowledge (kind : String) (change : ClientState → Bytes → ClientState) :
    ClientState → List Bytes → ClientState × List Value
  | state, [] => (state, [])
  | state, channel :: channels =>
    let state' := change state channel
    let (final, responses) := acknowledge kind change state' channels
    (final, pubSubAckResponse kind (.bulk channel) state'.subscribedChannels.length :: responses)

def handleSubscribe (state : ClientState) (args : List Bytes) :
    Except CommandError (ClientState × List Value) :=
  if state.inTransaction then .error .subscribeInsideMulti
  else .ok (acknowledge "subscribe" ClientState.subscribeChannel state args)

def handleUnsubscribe (state : ClientState) (args : List Bytes) :
    Except CommandError (ClientState × List Value) :=
  if state.inTransaction then .error .subscribeInsideMulti
  else
    let channels := if args = [] then sortBy id state.subscribedChannels else args
    if channels = [] then .ok (state, [pubSubAckResponse "unsubscribe" nullBulk 0])
    else .ok (acknowledge "unsubscribe" ClientState.unsubscribeChannel state channels)

def handleWatch (state : ClientState) (args : List Bytes) :
    Except CommandError (ClientState × List Value) :=
  if state.inTransaction then .error .watchInsideMulti
  else .ok (state.watchKeys args, [okResponse])

def handleMulti (state : ClientState) : Except CommandError (ClientState × List Value) :=
  if state.isSubscribed then .error .subscribedModeOnly
  else if state.inTransaction then .error .multiNested
  else .ok (state.beginTransaction, [okResponse])

def handleDiscard (state : ClientState) : Except CommandError (ClientState × List Value) :=
  if state.inTransaction then .ok (state.resetTransaction.unwatchAll, [okResponse])
  else .error .discardWithoutMulti

def handleMonitor (state : ClientState) : Except CommandError (ClientState × List Value) :=
  if state.inTransaction then .error (.other "MONITOR inside MULTI is not allowed")
  else if state.isSubscribed then .error .subscribedModeOnly
  else if x.monitorRegistry then .ok ({ state with monitoring := true }, [okResponse])
  else .error (.other "monitor registry unavailable")

def handleAuth (state : ClientState) (args : List Bytes) :
    Except CommandError (ClientState × List Value) :=
  if args = [x.requirePass] then .ok ({ state with authenticated := true }, [okResponse])
  else .error .wrongPass

/-- Run a command that needs the state of its connection. -/
def onClient (ctx : Context) (w : World)
    (handler : ClientState → Except CommandError (ClientState × List Value)) :
    World × Except Failure ExecuteResult :=
  match w.clientState ctx with
  | none => (w, .error (.refused clientStateUnavailable))
  | some state =>
    match handler state with
    | .error err => (w, .error (.refused err))
    | .ok (state', responses) =>
      (w.updateContext ctx fun _ => state', .ok (.ofResponses responses))

/-! ## Commands that use the rest of the server -/

def handlePing (args : List Bytes) : Except CommandError ExecuteResult :=
  match args with
  | [] => .ok (.ofResponses [.simpleString (ascii "PONG")])
  | [message] => .ok (.ofResponses [.bulk message])
  | _ => .error (.wrongNumberOfArguments "PING")

def handleEcho (args : List Bytes) : Except CommandError ExecuteResult :=
  match args with
  | [message] => .ok (.ofResponses [.bulk message])
  | _ => .error (.wrongNumberOfArguments "ECHO")

def handleReplConf (ctx : Context) (args : List Bytes) (env : Env) :
    Except CommandError ExecuteResult :=
  match args with
  | [subcommand, _] =>
    let subcommand := x.rt.toUpper subcommand
    if subcommand = ascii "LISTENING-PORT" then .ok (.ofResponses [okResponse])
    else if subcommand = ascii "GETACK" then
      if ctx.origin then
        .ok { ExecuteResult.ofResponses [] with
          upstreamReplies := [propagationFrame ⟨CommandName.replConf.text,
            [ascii "ACK", formatInt (x.replicaOffset env)]⟩] }
      else .error .syntaxError
    else if subcommand = ascii "ACK" then .ok (.ofResponses [])
    else .error .syntaxError
  | _ => .error outOfRange

/-- `handlePSync`: the strings of the keyspace as one bulk string. -/
def handlePSync (ctx : Context) (w : World) (env : Env) :
    World × Except Failure ExecuteResult :=
  if x.masterReplicationID = [] then (w, .error (.refused (.other "replication state unavailable")))
  else
    let payload := Rdb.buildSnapshot (w.store.snapshotStrings (env.after 2)) (env.now 3)
    (w.updateContext ctx fun state => { state with replica := true },
      .ok { ExecuteResult.ofResponses
        [.simpleString (ascii "FULLRESYNC " ++ x.masterReplicationID ++ ascii " 0"), .bulk payload]
        with registerReplica := true })

def handleInfo (args : List Bytes) (env : Env) : Except CommandError ExecuteResult :=
  let sections := x.rt.toLower (args.headD (ascii "all"))
  if sections ∈ [ascii "default", ascii "all", ascii "memory", ascii "replication",
      ascii "clients"] then .ok (.ofResponses [.text (x.info env sections)])
  else .error .syntaxError

/-- The commands that do not use the store, `EXEC` apart. -/
def runOther (ctx : Context) (env : Env) (c : CommandName) (args : List Bytes) (w : World) :
    World × Except Failure ExecuteResult :=
  match c with
  | .subscribe => onClient ctx w fun state => handleSubscribe state args
  | .unsubscribe => onClient ctx w fun state => handleUnsubscribe state args
  | .watch => onClient ctx w fun state => handleWatch state args
  | .multi => onClient ctx w handleMulti
  | .discard => onClient ctx w handleDiscard
  | .monitor => onClient ctx w x.handleMonitor
  | .auth =>
    if x.requirePass = [] then (w, .error (.refused .authNotConfigured))
    else onClient ctx w fun state => x.handleAuth state args
  | .ping => (w, (handlePing args).mapError .refused)
  | .echo => (w, (handleEcho args).mapError .refused)
  | .publish =>
    (w, .ok (.ofResponses [integerResponse
      (x.deliverPubSubMessage env (args.headD []) (args.tail.headD []))]))
  | .replConf => (w, (x.handleReplConf ctx args env).mapError .refused)
  | .pSync => x.handlePSync ctx w env
  | .wait =>
    (w, (x.waitForReplicas env ctx.inline args).map fun acked =>
      .ofResponses [integerResponse acked])
  | .bgRewriteAOF =>
    (w, ((x.aofRewrite env).mapError .refused).map fun _ =>
      .ofResponses [.simpleString (ascii "Background append only file rewriting started")])
  | .info => (w, (x.handleInfo args env).mapError .refused)
  | .slowlog => (w, .ok (.ofResponses [x.slowlog env args]))
  | _ => (w, .error (.refused outOfRange))

/-! ## Running a request -/

/-- The frame of a command that ran: SET may be rewritten. -/
def commandFrameOf (c : CommandName) (request : Request) (setExpiryMillis : Int) : Value :=
  match c with
  | .set => (rewriteSetFrame request setExpiryMillis).getD (propagationFrame request)
  | _ => propagationFrame request

/-- The frames of `recordEvictedKeys`. -/
def evictionFrames (evicted : List Bytes) : List Value :=
  if evicted = [] then [] else [deleteFrame evicted]

/-- The durability frames of a command that ran. -/
def durabilityFrames (c : CommandName) (request : Request) (reply : Reply) : List Value :=
  (if c.durable then [commandFrameOf c request reply.setExpiryMillis] else []) ++
    evictionFrames reply.evicted

/-- The propagation frames of a command that ran: none for what came from the replication
stream. -/
def propagationFrames (ctx : Context) (c : CommandName) (request : Request) (reply : Reply) :
    List Value :=
  if ctx.origin then []
  else (if c.propagates then [commandFrameOf c request reply.setExpiryMillis] else []) ++
    evictionFrames reply.evicted

/-- Run a looked-up command other than `EXEC`. -/
def runCommand (ctx : Context) (env : Env) (c : CommandName) (request : Request) (w : World) :
    World × Except Failure ExecuteResult :=
  match storeHandler x.rt ctx.inline c with
  | some handler =>
    match handler w.store request.args env with
    | (s, .error err) => ({ w with store := s }, .error err)
    | (s, .ok reply) =>
      (({ w with store := s } : World).touchWatchKeys (reply.touched ++ reply.evicted),
        .ok ⟨[reply.response], propagationFrames ctx c request reply,
          durabilityFrames c request reply, [], false⟩)
  | none =>
    let (w', result) := x.runOther ctx env c request.args w
    (w', result.map fun r =>
      { r with propagation := propagationFrames ctx c request (.plain .null) })

/-- `executeRequestDetailed` without queueing, for a request other than `EXEC`. -/
def runRequest (ctx : Context) (env : Env) (request : Request) (w : World) :
    World × Except Failure ExecuteResult :=
  match x.validateContext ctx request w with
  | .error err => (w, .error (.refused err))
  | .ok () =>
    match x.lookup request (env.clock 0) with
    | .error err => (w, .error (.refused err))
    | .ok c => x.runCommand ctx env c request w

/-! ## Transactions -/

/-- The answer of `EXEC` to a queued command that did not return one response. -/
def invalidResponse : Value :=
  .errorValue (ascii "ERR queued command returned an invalid response")

/-- The loop of `handleExec`: a done context ends the whole `EXEC` and loses the frames so far. -/
def execLoop (ctx : Context) : (Nat → Env) → List QueuedCommand → World → ExecuteResult →
    World × Except Failure ExecuteResult
  | _, [], w, acc =>
    (w, .ok { acc with responses := [.array acc.responses false] })
  | envs, queued :: rest, w, acc =>
    match x.runRequest ctx (envs 0) queued.request w with
    | (w', .error .canceled) => (w', .error .canceled)
    | (w', .error (.refused err)) =>
      execLoop ctx (fun i => envs (i + 1)) rest w'
        { acc with responses := acc.responses ++ [err.response] }
    | (w', .ok result) =>
      match result.responses with
      | [response] =>
        execLoop ctx (fun i => envs (i + 1)) rest w'
          { acc with
            responses := acc.responses ++ [response]
            propagation := acc.propagation ++ result.propagation
            durability := acc.durability ++ result.durability }
      | _ =>
        execLoop ctx (fun i => envs (i + 1)) rest w'
          { acc with responses := acc.responses ++ [invalidResponse] }

/-- `handleExec`. -/
def handleExec (ctx : Context) (envs : Nat → Env) (w : World) :
    World × Except Failure ExecuteResult :=
  match w.clientState ctx with
  | none => (w, .error (.refused clientStateUnavailable))
  | some state =>
    if state.inTransaction then
      if state.txDirty then
        (w.updateContext ctx fun state => state.resetTransaction.unwatchAll,
          .error (.refused .execAbort))
      else if state.txFailed then
        (w.updateContext ctx fun state => state.resetTransaction.unwatchAll,
          .ok (.ofResponses [.array [] true]))
      else
        x.execLoop ctx envs state.txQueue
          (w.updateContext ctx fun state => state.unwatchAll.drainTransaction) (.ofResponses [])
    else (w, .error (.refused .execWithoutMulti))

/-- `maybeQueueRequest`: what it answers when it does not let the request through. -/
def maybeQueueRequest (ctx : Context) (request : Request) (now : Instant) (w : World) :
    Option (World × Except Failure ExecuteResult) :=
  match w.clientState ctx with
  | none => none
  | some state =>
    if state.inTransaction then
      if h : isTransactionControlCommand request.name = false then
        match x.lookup request now with
        | .error err =>
          some (w.updateContext ctx fun state => { state with txDirty := true },
            .error (.refused err))
        | .ok _ =>
          some (w.updateContext ctx fun state =>
              { state with txQueue := state.txQueue ++ [⟨request, h⟩] },
            .ok (.ofResponses [.simpleString (ascii "QUEUED")]))
      else none
    else none

/-- `executeRequestDetailed` of a client's request. -/
def executeRequest (ctx : Context) (envs : Nat → Env) (request : Request) (w : World) :
    World × Except Failure ExecuteResult :=
  match x.validateContext ctx request w with
  | .error err => (w, .error (.refused err))
  | .ok () =>
    match x.maybeQueueRequest ctx request ((envs 0).clock 0) w with
    | some answer => answer
    | none =>
      match x.lookup request ((envs 0).clock 0) with
      | .error err => (w, .error (.refused err))
      | .ok .exec => x.handleExec ctx (fun i => envs (i + 1)) w
      | .ok c => x.runCommand ctx (envs 0) c request w

/-- `ExecuteDetailed`. -/
def executeDetailed (ctx : Context) (envs : Nat → Env) (value : Value) (w : World) :
    World × Except Failure ExecuteResult :=
  match decodeRequest x.rt value with
  | .error err => (w, .error (.refused err))
  | .ok request => x.executeRequest ctx envs request w

end Executor

end Stash
