import Stash.Machine
import Stash.RequestRuns
import Stash.Touches

/-!
# Watched keys

In the default networking mode every connection is served by a goroutine of its own, and what
protects a watched key is spread over several critical sections.  A command first runs its operation
on the store; then `Touch` looks up the watchers of the keys it wrote, and marks their transactions
failed one after the other.  `EXEC` looks at that mark once, takes its watches back, clears the mark
and only then runs the queue.

The machine takes these steps one at a time, for any number of connections.  Two variables follow
the history of a connection: the keys it watches for the transaction at hand, and those of them that
a successful command of another connection changed.  The invariant is that such a change is either
marked already or still owed by the connection that made it.
-/

namespace Stash

open DecimalText GoMap Handlers List Function World
open Keyspace (Spares)

/-- Where a connection is in its request. -/
inductive Phase where
  /-- between two requests, or touching keys after one -/
  | ready
  /-- `EXEC` or `DISCARD` before `WatchRegistry.UnwatchAll`; an `EXEC` that goes on found the
  transaction not failed -/
  | unwatching (goesOn : Bool)
  /-- before `ClearTransactionFailure` -/
  | clearing (goesOn : Bool)
  /-- before the first command of the queue -/
  | starting (queue : List QueuedCommand)
  | running (queue : List QueuedCommand)

/-- `EXEC` has found the transaction not failed and has run no queued command yet. -/
def Phase.PastCheck : Phase → Prop
  | unwatching true | clearing true | starting _ => True
  | _ => False

/-- The part of a connection that its goroutine holds, and its history. -/
structure Connection where
  phase : Phase
  /-- the calls of `Touch` still to be made -/
  touches : List (List Bytes)
  /-- the states of the current `Touch` still to be marked -/
  marks : List Nat
  /-- the keys watched for the transaction at hand -/
  since : List Bytes
  /-- those of them that another connection changed since -/
  changed : Bytes → Prop

/-- A connection that was just accepted. -/
def Connection.accepted : Connection :=
  ⟨.ready, [], [], [], fun _ => False⟩

/-- The server as far as watched keys are concerned. -/
structure Watching where
  world : World
  /-- `WatchRegistry.watchers` -/
  watchers : Bytes → List Nat
  connections : Nat → Connection

/-- A server with the given store and new connections. -/
def Watching.started (store : Store) : Watching :=
  ⟨⟨store, fun _ => .fresh⟩, fun _ => [], fun _ => .accepted⟩

/-- The atomic steps. -/
inductive WatchStep where
  /-- a request up to and with its operation on the store, its call of `Watch` or its look at
  `TransactionFailed` -/
  | request (client : Nat) (env : Env) (request : Request)
  /-- `Touch` looks up the watchers -/
  | snapshot (client : Nat)
  /-- `MarkTransactionFailed` -/
  | mark (client target : Nat)
  /-- `WatchRegistry.UnwatchAll` -/
  | unwatch (client : Nat)
  /-- `ClearTransactionFailure`, and `DrainTransaction` if the queue is to be run -/
  | clear (client : Nat)
  /-- the operation of the next queued command, or the end of the queue -/
  | queued (client : Nat) (env : Env)

/-- The command succeeds and changes what is live under the key. -/
def StoreRun.Changes (x : Executor) (inline : Bool) (r : StoreRun) (s : Store) (key : Bytes) :
    Prop :=
  (∃ reply, (r.handle x inline s).2 = .ok reply) ∧ ∃ t, r.env.DoneBy t ∧
    (r.handle x inline s).1.view.liveAt t key ≠ s.view.liveAt t key

/-- The calls of `Touch` a command makes: for its own keys, and for the keys it evicted. -/
def touchesOf : Except Failure Reply → List (List Bytes)
  | .ok reply => [reply.touched, reply.evicted].filter fun keys => keys ≠ []
  | .error _ => []

namespace Watching

def onConnection (s : Watching) (client : Nat) (f : Connection → Connection) : Watching :=
  { s with connections := update s.connections client (f (s.connections client)) }

def onClient (s : Watching) (client : Nat) (f : ClientState → ClientState) : Watching :=
  { s with world := s.world.updateClient client f }

/-- An operation on the store.  The history of the other connections learns what it changed. -/
def operate (x : Executor) (s : Watching) (client : Nat) (run : StoreRun) : Watching :=
  { s with
    world := { s.world with store := (run.handle x false s.world.store).1 }
    connections := fun id =>
      if id = client then
        { s.connections id with touches := touchesOf (run.handle x false s.world.store).2 }
      else
        { s.connections id with
          changed := fun key => (s.connections id).changed key ∨
            key ∈ (s.connections id).since ∧ run.Changes x false s.world.store key } }

/-- `WatchRegistry.Watch`. -/
def watch (s : Watching) (client : Nat) (keys : List Bytes) : Watching :=
  { s with
    world := s.world.updateClient client fun state => state.watchKeys keys
    watchers := fun key =>
      if key ∈ keys ∧ key ≠ [] ∧ client ∉ s.watchers key then client :: s.watchers key
      else s.watchers key
    connections := update s.connections client
      { s.connections client with
        since := (s.connections client).since ++ keys.filter fun key => key ≠ [] } }

/-- `handleExec` up to its first `UnwatchAll`. -/
def exec (s : Watching) (client : Nat) : Watching :=
  let state := s.world.clients client
  if state.inTransaction then
    if state.txDirty || state.txFailed then
      (s.onClient client ClientState.resetTransaction).onConnection client
        fun c => { c with phase := .unwatching false }
    else s.onConnection client fun c => { c with phase := .unwatching true }
  else s

/-- `handleDiscard` up to `UnwatchAll`. -/
def discard (s : Watching) (client : Nat) : Watching :=
  if (s.world.clients client).inTransaction then
    (s.onClient client ClientState.resetTransaction).onConnection client
      fun c => { c with phase := .unwatching false }
  else s

/-- Run a looked-up command up to its first atomic step. -/
def dispatch (x : Executor) (s : Watching) (client : Nat) (env : Env) (c : CommandName)
    (args : List Bytes) : Watching :=
  match c with
  | .exec => s.exec client
  | .discard => s.discard client
  | .watch =>
    if (s.world.clients client).inTransaction then s else s.watch client args
  | c =>
    match storeHandler x.rt false c with
    | some _ => s.operate x client ⟨env, c, args⟩
    | none => { s with world := (x.runOther (.ofClient client) env c args s.world).1 }

/-- What becomes of a request before it is run. -/
inductive Admission where
  | refused
  /-- it was queued, or failed the transaction -/
  | answered (world : World)
  | runs (c : CommandName)

/-- The checks of `executeRequestDetailed`. -/
def admission (x : Executor) (s : Watching) (client : Nat) (env : Env) (request : Request) :
    Admission :=
  match x.validateContext (.ofClient client) request s.world with
  | .error _ => .refused
  | .ok () =>
    match x.maybeQueueRequest (.ofClient client) request (env.clock 0) s.world with
    | some answer => .answered answer.1
    | none =>
      match x.lookup request (env.clock 0) with
      | .error _ => .refused
      | .ok c => .runs c

/-- `executeRequestDetailed` up to the first atomic step. -/
def begin (x : Executor) (s : Watching) (client : Nat) (env : Env) (request : Request) : Watching :=
  match s.admission x client env request with
  | .refused => s
  | .answered world => { s with world := world }
  | .runs c => s.dispatch x client env c request.args

/-- The checks of `executeRequestDetailed` for a queued command, which is not queued again. -/
def admitQueued (x : Executor) (s : Watching) (client : Nat) (env : Env) (request : Request) :
    Option CommandName :=
  match x.validateContext (.ofClient client) request s.world with
  | .error _ => none
  | .ok () => (x.lookup request (env.clock 0)).toOption

/-- A queued command up to the end of its operation on the store. -/
def runQueued (x : Executor) (s : Watching) (client : Nat) (env : Env) (request : Request) :
    Watching :=
  match s.admitQueued x client env request with
  | none => s
  | some c => s.dispatch x client env c request.args

/-- The connection has nothing left to touch. -/
def settledTouches (s : Watching) (client : Nat) : Bool :=
  (s.connections client).touches.isEmpty && (s.connections client).marks.isEmpty

def step (x : Executor) (s : Watching) : WatchStep → Option Watching
  | .request client env request =>
    match (s.connections client).phase with
    | .ready => if s.settledTouches client then some (s.begin x client env request) else none
    | _ => none
  | .snapshot client =>
    match (s.connections client).touches with
    | [] => none
    | keys :: rest =>
      if (s.connections client).marks = [] then
        some (s.onConnection client fun c =>
          { c with touches := rest, marks := (keys.flatMap s.watchers).dedup })
      else none
  | .mark client target =>
    if target ∈ (s.connections client).marks then
      some ((s.onClient target fun state => { state with txFailed := true }).onConnection client
        fun c => { c with marks := c.marks.erase target })
    else none
  | .unwatch client =>
    match (s.connections client).phase with
    | .unwatching goesOn =>
      some { s.onConnection client fun c => { c with phase := .clearing goesOn } with
        world := s.world.updateClient client fun state => { state with watchedKeys := [] }
        watchers := fun key =>
          if key ∈ (s.world.clients client).watchedKeys then
            (s.watchers key).filter fun id => id ≠ client
          else s.watchers key }
    | _ => none
  | .clear client =>
    match (s.connections client).phase with
    | .clearing true =>
      some ((s.onClient client fun state =>
          { state with txFailed := false }.drainTransaction).onConnection client
        fun c => { c with phase := .starting (s.world.clients client).txQueue })
    | .clearing false =>
      some ((s.onClient client fun state => { state with txFailed := false }).onConnection client
        fun c => { c with phase := .ready, since := [], changed := fun _ => False })
    | _ => none
  | .queued client env =>
    if s.settledTouches client then
      match (s.connections client).phase with
      | .starting [] | .running [] =>
        some (s.onConnection client fun c =>
          { c with phase := .ready, since := [], changed := fun _ => False })
      | .starting (queued :: rest) | .running (queued :: rest) =>
        some ((s.onConnection client fun c =>
            { c with phase := .running rest, since := [], changed := fun _ => False }).runQueued x
          client env queued.request)
      | _ => none
    else none

/-! ## No lost update -/

/-- **A transaction that is about to run its queue lost no update**: no successful command of
another connection changed a key since this one watched it. -/
def NoLostUpdate (s : Watching) : Prop :=
  ∀ client queue, (s.connections client).phase = .starting queue →
    ∀ key, ¬(s.connections client).changed key

/-- A connection has still to mark another one for a key: it has looked up the watchers, or is
going to. -/
def Owes (s : Watching) (other client : Nat) (key : Bytes) : Prop :=
  client ∈ (s.connections other).marks ∨ ∃ keys ∈ (s.connections other).touches, key ∈ keys

/-- The operation changes no key of a transaction that is past its check. -/
def Harmless (x : Executor) (s : Watching) (client : Nat) (run : StoreRun) : Prop :=
  ∀ other, other ≠ client → (s.connections other).phase.PastCheck →
    ∀ key ∈ (s.connections other).since, ¬run.Changes x false s.world.store key

/-- The step meets its condition: when an `EXEC` looks at its mark, no other connection is between
an operation on a key it watches and the mark for it; and no operation changes a key of a
transaction that is past its check. -/
def Timely (x : Executor) (s : Watching) : WatchStep → Prop
  | .request client env request =>
    ∀ c, s.admission x client env request = .runs c →
      (c = .exec → (s.world.clients client).txFailed = false →
        ∀ other, other ≠ client → ∀ key ∈ (s.world.clients client).watchedKeys,
          ¬s.Owes other client key) ∧
      s.Harmless x client ⟨env, c, request.args⟩
  | .queued client env =>
    match (s.connections client).phase with
    | .starting (queued :: _) | .running (queued :: _) =>
      ∀ c, s.admitQueued x client env queued.request = some c →
        s.Harmless x client ⟨env, c, queued.request.args⟩
    | _ => True
  | _ => True

/-! ## The state of the connections -/

/-- The watches and the mark of a connection are the same. -/
def SameWatch (a b : ClientState) : Prop :=
  b.watchedKeys = a.watchedKeys ∧ b.txFailed = a.txFailed

theorem SameWatch.refl (a : ClientState) : SameWatch a a :=
  ⟨rfl, rfl⟩

theorem clients_updateClient (w : World) (client : Nat) (f : ClientState → ClientState) (id : Nat) :
    (w.updateClient client f).clients id =
      if id = client then f (w.clients client) else w.clients id :=
  update_apply _ _ _ _

variable {client : Nat} {w : World} {c : CommandName} {request : Request} {env : Env}
    {x : Executor} {s s' : Watching} {key : Bytes}

theorem sameWatch_updateClient {f : ClientState → ClientState}
    (hf : SameWatch (w.clients client) (f (w.clients client))) (id : Nat) :
    SameWatch (w.clients id) ((w.updateClient client f).clients id) := by
  rw [clients_updateClient]
  split
  · rename_i hid
    rw [hid]
    exact hf
  · exact .refl _

theorem sameWatch_updateContext {ctx : Context} {f : ClientState → ClientState}
    (hf : ∀ state, w.clientState ctx = some state → SameWatch state (f state)) (id : Nat) :
    SameWatch (w.clients id) ((w.updateContext ctx f).clients id) := by
  unfold updateContext
  cases hclient : ctx.client with
  | none => exact .refl _
  | some client =>
    refine sameWatch_updateClient (hf _ ?_) id
    rw [clientState, hclient]
    rfl

/-- **Only `WATCH`, `EXEC` and `DISCARD` change the watches of a connection**, of the commands that
do not use the store. -/
theorem sameWatch_runOther (x : Executor) (hwatch : c ≠ .watch)
    (hdiscard : c ≠ .discard) (ctx : Context) (env : Env) (args : List Bytes) (w : World) (id : Nat) :
    SameWatch (w.clients id) ((x.runOther ctx env c args w).1.clients id) := by
  rcases x.runOther_changes ctx env c args w with heq | ⟨state, state', hstate, hchange, heq⟩
  · rw [heq]
    exact .refl _
  · rw [heq]
    refine sameWatch_updateContext (fun found hfound => ?_) id
    obtain rfl : state = found := Option.some.inj (hstate.symm.trans hfound)
    cases hchange with
    | mode | multi => exact .refl _
    | watch => exact absurd rfl hwatch
    | discard => exact absurd rfl hdiscard

theorem sameWatch_maybeQueue (x : Executor) {ctx : Context}
    {now : Instant} {answer : World × Except Failure ExecuteResult}
    (h : x.maybeQueueRequest ctx request now w = some answer) (id : Nat) :
    SameWatch (w.clients id) (answer.1.clients id) := by
  refine x.maybeQueue_rule h (fun _ _ => sameWatch_updateContext ?_ id)
    fun _ => sameWatch_updateContext ?_ id <;> exact fun _ _ => ⟨rfl, rfl⟩

/-- A request that is queued leaves watches and marks alone. -/
theorem sameWatch_answered {world : World} (h : s.admission x client env request = .answered world)
    (id : Nat) : SameWatch (s.world.clients id) (world.clients id) := by
  unfold admission at h
  split at h
  · cases h
  · split at h
    · rename_i answer hanswer
      cases h
      exact sameWatch_maybeQueue x hanswer id
    · split at h <;> cases h

/-- Commands that control a transaction are not queued. -/
theorem lookup_plain {queued : QueuedCommand} {now : Instant}
    (h : x.lookup queued.request now = .ok c) : c.transactionControl = false := by
  have hname := congrArg Request.name (x.lookup_ok h).1
  have hqueued := queued.plain
  rw [hname] at hqueued
  simpa [isTransactionControlCommand, CommandName.ofText_text] using hqueued

theorem admitQueued_plain {queued : QueuedCommand}
    (h : s.admitQueued x client env queued.request = some c) : c.transactionControl = false := by
  unfold admitQueued at h
  split at h
  · cases h
  · cases hlookup : x.lookup queued.request (env.clock 0) with
    | error err =>
      rw [hlookup] at h
      cases h
    | ok c' =>
      rw [hlookup] at h
      cases h
      exact lookup_plain hlookup

/-! ## The invariant -/

/-- What holds of a connection.  Between requests a change of a watched key is marked or owed; past
the check there was none. -/
def GuardedAt (s : Watching) (client : Nat) : Prop :=
  match (s.connections client).phase with
  | .ready =>
    (∀ key ∈ (s.connections client).since, key ∈ (s.world.clients client).watchedKeys) ∧
      ∀ key, (s.connections client).changed key →
        (s.world.clients client).txFailed = true ∨ ∃ other, other ≠ client ∧ s.Owes other client key
  | .unwatching true | .clearing true | .starting _ => ∀ key, ¬(s.connections client).changed key
  | .unwatching false | .clearing false => True
  | .running _ => (s.connections client).since = []

structure Guarded (s : Watching) : Prop where
  /-- every watch is registered -/
  registered : ∀ client, ∀ key ∈ (s.world.clients client).watchedKeys, client ∈ s.watchers key
  within : ∀ client key, (s.connections client).changed key → key ∈ (s.connections client).since
  guarded : ∀ client, s.GuardedAt client

theorem guarded_started (store : Store) : Guarded (started store) where
  registered _ _ h := (nomatch h)
  within _ _ h := h.elim
  guarded _ := ⟨fun _ h => (nomatch h), fun _ h => h.elim⟩

theorem Guarded.noLostUpdate (h : Guarded s) : s.NoLostUpdate := by
  intro client queue hphase
  have hguarded := h.guarded client
  unfold GuardedAt at hguarded
  rw [hphase] at hguarded
  exact hguarded

theorem Owes.of_eq {other : Nat} (h : s.Owes other client key)
    (hconnection : s'.connections other = s.connections other) : s'.Owes other client key := by
  unfold Owes at h ⊢
  rw [hconnection]
  exact h

/-- **A connection whose phase and history a step leaves alone stays guarded**, if every mark that
was owed to it is made or still owed. -/
theorem GuardedAt.alone (h : s.GuardedAt client)
    (hphase : (s'.connections client).phase = (s.connections client).phase)
    (hsince : (s'.connections client).since = (s.connections client).since)
    (hchanged : (s'.connections client).changed = (s.connections client).changed)
    (hwithin : ∀ key, (s.connections client).changed key → key ∈ (s.connections client).since)
    (hwatched : (s'.world.clients client).watchedKeys = (s.world.clients client).watchedKeys)
    (hfailed : (s.world.clients client).txFailed = true →
      (s'.world.clients client).txFailed = true)
    (howed : ∀ other, other ≠ client → ∀ key ∈ (s.world.clients client).watchedKeys,
      s.Owes other client key →
        (s'.world.clients client).txFailed = true ∨ s'.Owes other client key) :
    s'.GuardedAt client := by
  unfold GuardedAt at h ⊢
  rw [hphase, hsince, hchanged]
  split at h
  · obtain ⟨hkeys, howes⟩ := h
    refine ⟨fun key hkey => by rw [hwatched]; exact hkeys key hkey, fun key hkey => ?_⟩
    rcases howes key hkey with hmarked | ⟨other, hother, howes⟩
    · exact .inl (hfailed hmarked)
    · refine (howed other hother key (hkeys key (hwithin key hkey)) howes).imp id fun howes' => ?_
      exact ⟨other, hother, howes'⟩
  all_goals exact h

/-- **A step of one connection**: the others keep their history, and what they are owed. -/
theorem Guarded.of_step (h : Guarded s) (client : Nat)
    (hregistered : ∀ id, ∀ key ∈ (s'.world.clients id).watchedKeys, id ∈ s'.watchers key)
    (hothers : ∀ id, id ≠ client → s'.connections id = s.connections id ∧
      (s'.world.clients id).watchedKeys = (s.world.clients id).watchedKeys ∧
      ((s.world.clients id).txFailed = true → (s'.world.clients id).txFailed = true))
    (howed : ∀ id, id ≠ client → ∀ key ∈ (s.world.clients id).watchedKeys, s.Owes client id key →
      (s'.world.clients id).txFailed = true ∨ s'.Owes client id key)
    (hwithin : ∀ key, (s'.connections client).changed key → key ∈ (s'.connections client).since)
    (hguarded : s'.GuardedAt client) : Guarded s' where
  registered := hregistered
  within := by
    intro id
    by_cases hid : id = client
    · subst hid
      exact hwithin
    · rw [(hothers id hid).1]
      exact h.within id
  guarded := by
    intro id
    by_cases hid : id = client
    · subst hid
      exact hguarded
    · obtain ⟨hconnection, hwatched, hfailed⟩ := hothers id hid
      refine (h.guarded id).alone (by rw [hconnection]) (by rw [hconnection]) (by rw [hconnection])
        (h.within id) hwatched hfailed fun other hother key hkey howes => ?_
      by_cases hclient : other = client
      · subst hclient
        exact howed id hid key hkey howes
      · exact .inr (howes.of_eq (hothers other hclient).1)

/-- A step of the executor that leaves watches and marks alone. -/
theorem Guarded.sameWatch (h : Guarded s)
    (hsame : ∀ id, SameWatch (s.world.clients id) (w.clients id)) :
    Guarded { s with world := w } where
  registered id key hkey := by
    rw [(hsame id).1] at hkey
    exact h.registered id key hkey
  within := h.within
  guarded id := (h.guarded id).alone rfl rfl rfl (h.within id) (hsame id).1
    (fun hfailed => (hsame id).2.trans hfailed) fun _ _ _ _ howes => .inr howes

/-! ## The operations on the store -/

/-- A store command reports what it changes. -/
theorem handle_tells (x : Executor) (inline : Bool) (r : StoreRun) (s : Store) :
    Tells s r.env (r.handle x inline s) := by
  unfold StoreRun.handle
  split
  · rename_i handler hhandler
    exact storeHandler_tells hhandler s r.args r.env
  · exact tells_refused s r.env _

/-- **A key whose live value differs after a successful command was touched or evicted.** -/
theorem mem_touched_or_evicted {inline : Bool} {r : StoreRun} {s : Store}
    {reply : Reply} (hreply : (r.handle x inline s).2 = .ok reply) {t : Int} (ht : r.env.DoneBy t)
    (hdiffers : (r.handle x inline s).1.view.liveAt t key ≠ s.view.liveAt t key) :
    key ∈ reply.touched ∨ key ∈ reply.evicted := by
  by_contra hneither
  obtain ⟨htouched, hevicted⟩ := not_or.mp hneither
  have hspares := handle_tells x inline r s reply hreply t ht key htouched hevicted
  exact hdiffers (hspares.liveAt (le_refl t))

/-- **A change is touched.** -/
theorem changes_touched {inline : Bool} {r : StoreRun} {s : Store}
    (h : r.Changes x inline s key) : ∃ keys ∈ touchesOf (r.handle x inline s).2, key ∈ keys := by
  obtain ⟨⟨reply, hreply⟩, t, ht, hdiffers⟩ := h
  rw [hreply]
  have hmem : ∀ keys ∈ [reply.touched, reply.evicted], key ∈ keys →
      ∃ keys ∈ touchesOf (.ok reply), key ∈ keys := fun keys hkeys hkey =>
    ⟨keys, mem_filter.mpr ⟨hkeys, decide_eq_true (ne_nil_of_mem hkey)⟩, hkey⟩
  rcases mem_touched_or_evicted hreply ht hdiffers with htouched | hevicted
  · exact hmem reply.touched (by simp) htouched
  · exact hmem reply.evicted (by simp) hevicted

theorem settledTouches_iff :
    s.settledTouches client = true ↔
      (s.connections client).touches = [] ∧ (s.connections client).marks = [] := by
  unfold settledTouches
  rw [Bool.and_eq_true, List.isEmpty_iff, List.isEmpty_iff]

/-- **An operation on the store** is owed to the watchers of what it changes. -/
theorem Guarded.operate (h : Guarded s) (hsettled : s.settledTouches client = true) {run : StoreRun}
    (hharmless : s.Harmless x client run) : Guarded (s.operate x client run) := by
  obtain ⟨htouches, hmarks⟩ := settledTouches_iff.mp hsettled
  have hself : (s.operate x client run).connections client =
      { s.connections client with touches := touchesOf (run.handle x false s.world.store).2 } :=
    if_pos rfl
  have hother : ∀ id, id ≠ client → (s.operate x client run).connections id =
      { s.connections id with
        changed := fun key => (s.connections id).changed key ∨
          key ∈ (s.connections id).since ∧ run.Changes x false s.world.store key } :=
    fun id hid => if_neg hid
  -- what is owed by another connection stays owed; this one owed nothing
  have howes : ∀ other id key, s.Owes other id key → (s.operate x client run).Owes other id key := by
    intro other id key howes
    by_cases hclient : other = client
    · subst hclient
      unfold Owes at howes
      rw [htouches, hmarks] at howes
      rcases howes with howes | ⟨keys, hkeys, -⟩
      · cases howes
      · cases hkeys
    · unfold Owes at howes ⊢
      rw [hother other hclient]
      exact howes
  refine ⟨h.registered, fun id key hkey => ?_, fun id => ?_⟩
  · by_cases hid : id = client
    · subst hid
      rw [hself] at hkey ⊢
      exact h.within id key hkey
    · rw [hother id hid] at hkey ⊢
      exact hkey.elim (h.within id key) And.left
  · by_cases hid : id = client
    · subst hid
      exact (h.guarded id).alone (by rw [hself]) (by rw [hself]) (by rw [hself]) (h.within id) rfl
        (fun hfailed => hfailed) fun other _ key _ howed => .inr (howes other id key howed)
    · have hguarded := h.guarded id
      have hpast := hharmless id hid
      unfold GuardedAt at hguarded ⊢
      rw [hother id hid]
      cases hphase : (s.connections id).phase with
      | ready =>
        rw [hphase] at hguarded
        refine ⟨hguarded.1, fun key hkey => ?_⟩
        rcases hkey with hkey | ⟨-, hchanges⟩
        · refine (hguarded.2 key hkey).imp_right ?_
          rintro ⟨other, hne, howed⟩
          exact ⟨other, hne, howes other id key howed⟩
        · obtain ⟨keys, hkeys, hkey⟩ := changes_touched hchanges
          refine .inr ⟨client, Ne.symm hid, .inr ⟨keys, ?_, hkey⟩⟩
          rw [hself]
          exact hkeys
      | running queue =>
        rw [hphase] at hguarded
        exact hguarded
      | starting queue =>
        rw [hphase] at hguarded hpast
        exact fun key hkey => hkey.elim (hguarded key) fun hnew => hpast trivial key hnew.1 hnew.2
      | unwatching goesOn | clearing goesOn =>
        rw [hphase] at hguarded hpast
        cases goesOn with
        | false => trivial
        | true =>
          exact fun key hkey => hkey.elim (hguarded key) fun hnew => hpast trivial key hnew.1 hnew.2

/-! ## The other steps -/

/-- A step that replaces the state of one connection. -/
theorem Guarded.own (h : Guarded s) {c : Connection}
    {state : ClientState} (hconnections : s'.connections = update s.connections client c)
    (hclients : s'.world.clients = update s.world.clients client state)
    (hregistered : ∀ id, ∀ key ∈ (s'.world.clients id).watchedKeys, id ∈ s'.watchers key)
    (howed : ∀ id, id ≠ client → ∀ key ∈ (s.world.clients id).watchedKeys, s.Owes client id key →
      id ∈ c.marks ∨ ∃ keys ∈ c.touches, key ∈ keys)
    (hwithin : ∀ key, c.changed key → key ∈ c.since) (hguarded : s'.GuardedAt client) :
    Guarded s' := by
  have hself : s'.connections client = c := by rw [hconnections, update_self]
  refine h.of_step client hregistered (fun id hid => ?_) (fun id hid key hkey howes => .inr ?_)
    (by rw [hself]; exact hwithin) hguarded
  · rw [hconnections, hclients, update_of_ne hid, update_of_ne hid]
    exact ⟨rfl, rfl, fun hfailed => hfailed⟩
  · unfold Owes
    rw [hself]
    exact howed id hid key hkey howes

/-- The watches of the other connections, and what is left of those of this one, are registered. -/
theorem Guarded.registered_of_update (h : Guarded s) {state : ClientState}
    (hstate : ∀ key ∈ state.watchedKeys, key ∈ (s.world.clients client).watchedKeys) (id : Nat) :
    ∀ key ∈ (update s.world.clients client state id).watchedKeys, id ∈ s.watchers key := by
  intro key hkey
  by_cases hid : id = client
  · subst hid
    rw [update_self] at hkey
    exact h.registered id key (hstate key hkey)
  · rw [update_of_ne hid] at hkey
    exact h.registered id key hkey

theorem guardedAt_of_connection {c : Connection} (hconnection : s.connections client = c)
    (hphase : c.phase.PastCheck) (hchanged : ∀ key, ¬c.changed key) : s.GuardedAt client := by
  subst hconnection
  unfold GuardedAt
  split
  · rename_i hready
    rw [hready] at hphase
    exact hphase.elim
  · exact hchanged
  · exact hchanged
  · exact hchanged
  · trivial
  · trivial
  · rename_i hrunning
    rw [hrunning] at hphase
    exact hphase.elim

section

variable (h : Guarded s)
include h

/-- **A transaction that is given up** has nothing to guard any more. -/
theorem Guarded.abort (client : Nat) :
    Guarded ((s.onClient client ClientState.resetTransaction).onConnection client
      fun c => { c with phase := .unwatching false }) := by
  refine h.own rfl rfl (h.registered_of_update fun _ hkey => hkey) (fun _ _ _ _ howes => howes)
    (h.within client) ?_
  unfold GuardedAt onConnection
  simp only [update_self]

/-- **`EXEC` looks at its mark**: if it finds none and nothing is owed, nothing was changed. -/
theorem Guarded.exec (hphase : (s.connections client).phase = .ready)
    (htimely : (s.world.clients client).txFailed = false → ∀ other, other ≠ client →
      ∀ key ∈ (s.world.clients client).watchedKeys, ¬s.Owes other client key) :
    Guarded (s.exec client) := by
  unfold Watching.exec
  simp only
  split
  · split
    · exact h.abort client
    · rename_i hpasses
      have hunmarked : (s.world.clients client).txFailed = false :=
        (Bool.or_eq_false_iff.mp (Bool.eq_false_iff.mpr hpasses)).2
      have hguarded := h.guarded client
      unfold GuardedAt at hguarded
      rw [hphase] at hguarded
      have hnone : ∀ key, ¬(s.connections client).changed key := by
        intro key hkey
        rcases hguarded.2 key hkey with hmarked | ⟨other, hother, howes⟩
        · rw [hunmarked] at hmarked
          cases hmarked
        · exact htimely hunmarked other hother key (hguarded.1 key (h.within client key hkey)) howes
      refine h.own rfl (update_eq_self client _).symm h.registered
        (fun _ _ _ _ howes => howes) (h.within client) ?_
      exact guardedAt_of_connection (update_self _ _ _) trivial hnone
  · exact h

theorem Guarded.discard (client : Nat) : Guarded (s.discard client) := by
  unfold Watching.discard
  split
  · exact h.abort client
  · exact h

/-- **`WATCH`** registers what it watches. -/
theorem Guarded.watch (hphase : (s.connections client).phase = .ready)
    (keys : List Bytes) : Guarded (s.watch client keys) := by
  have hkept : ∀ id key, id ∈ s.watchers key → id ∈ (s.watch client keys).watchers key := by
    intro id key hid
    simp only [Watching.watch]
    split
    · exact mem_cons_of_mem _ hid
    · exact hid
  refine h.own rfl rfl (fun id key hkey => ?_) (fun _ _ _ _ howes => howes)
    (fun key hkey => mem_append_left _ (h.within client key hkey)) ?_
  · simp only [Watching.watch, updateClient] at hkey
    by_cases hid : id = client
    · subst hid
      rw [update_self, ClientState.watchKeys, mem_append, mem_filter] at hkey
      rcases hkey with hkey | ⟨hkey, hnonempty⟩
      · exact hkept id key (h.registered id key hkey)
      · simp only [Watching.watch]
        split
        · exact mem_cons_self
        · rename_i hthere
          by_contra hnew
          exact hthere ⟨hkey, of_decide_eq_true hnonempty, hnew⟩
    · rw [update_of_ne hid] at hkey
      exact hkept id key (h.registered id key hkey)
  · have hguarded := h.guarded client
    unfold GuardedAt at hguarded ⊢
    rw [hphase] at hguarded
    simp only [Watching.watch, updateClient, update_self, hphase]
    refine ⟨fun key hkey => ?_, fun key hkey => (hguarded.2 key hkey).imp_right ?_⟩
    · rw [mem_append] at hkey
      rw [ClientState.watchKeys, mem_append]
      exact hkey.imp_left (hguarded.1 key)
    · rintro ⟨other, hother, howes⟩
      exact ⟨other, hother, howes.of_eq (update_of_ne hother _ _)⟩

/-- **A command up to its first atomic step.** -/
theorem Guarded.dispatch {args : List Bytes} (hsettled : s.settledTouches client = true)
    (hharmless : s.Harmless x client ⟨env, c, args⟩)
    (hcontrol : c = .exec ∨ c = .watch → (s.connections client).phase = .ready)
    (htimely : c = .exec → (s.world.clients client).txFailed = false → ∀ other, other ≠ client →
      ∀ key ∈ (s.world.clients client).watchedKeys, ¬s.Owes other client key) :
    Guarded (s.dispatch x client env c args) := by
  unfold Watching.dispatch
  split
  · exact h.exec (hcontrol (.inl rfl)) (htimely rfl)
  · exact h.discard client
  · split
    · exact h
    · exact h.watch (hcontrol (.inr rfl)) args
  · rename_i hexec hdiscard hwatch
    split
    · exact h.operate hsettled hharmless
    · exact h.sameWatch (sameWatch_runOther x hwatch hdiscard (.ofClient client) env args s.world)

theorem Guarded.begin (hphase : (s.connections client).phase = .ready)
    (hsettled : s.settledTouches client = true)
    (htimely : s.Timely x (.request client env request)) : Guarded (s.begin x client env request) := by
  unfold Watching.begin
  cases hadmission : s.admission x client env request with
  | refused => exact h
  | answered world => exact h.sameWatch (sameWatch_answered hadmission)
  | runs c =>
    obtain ⟨hexec, hharmless⟩ := htimely c hadmission
    exact h.dispatch hsettled hharmless (fun _ => hphase) hexec

/-- **`Touch` looks up the watchers**: whoever watches a key it was called for is among them. -/
theorem Guarded.snapshot {keys : List Bytes}
    {rest : List (List Bytes)} (htouches : (s.connections client).touches = keys :: rest)
    (hmarks : (s.connections client).marks = []) :
    Guarded (s.onConnection client fun c =>
      { c with touches := rest, marks := (keys.flatMap s.watchers).dedup }) := by
  refine h.own rfl (update_eq_self client _).symm h.registered ?_ (h.within client) ?_
  · intro id _ key hkey howes
    rcases howes with howes | ⟨touched, htouched, hmem⟩
    · rw [hmarks] at howes
      cases howes
    · rw [htouches] at htouched
      rcases mem_cons.mp htouched with rfl | hlater
      · refine .inl (mem_dedup.mpr (mem_flatMap.mpr ⟨key, hmem, ?_⟩))
        exact h.registered id key hkey
      · exact .inr ⟨touched, hlater, hmem⟩
  · refine (h.guarded client).alone ?_ ?_ ?_ (h.within client) rfl (fun hfailed => hfailed)
      fun other hother key _ howes => .inr (howes.of_eq (update_of_ne hother _ _))
    · simp only [onConnection, update_self]
    · simp only [onConnection, update_self]
    · simp only [onConnection, update_self]

/-- **`MarkTransactionFailed`** pays what was owed. -/
theorem Guarded.mark (client target : Nat) :
    Guarded ((s.onClient target fun state => { state with txFailed := true }).onConnection client
      fun c => { c with marks := c.marks.erase target }) := by
  have hclients : ∀ id, ((s.world.updateClient target fun state =>
      { state with txFailed := true }).clients id).watchedKeys = (s.world.clients id).watchedKeys ∧
      ((s.world.clients id).txFailed = true ∨ id = target → ((s.world.updateClient target
        fun state => { state with txFailed := true }).clients id).txFailed = true) := by
    intro id
    rw [clients_updateClient]
    split
    · rename_i hid
      rw [hid]
      exact ⟨rfl, fun _ => rfl⟩
    · rename_i hid
      exact ⟨rfl, fun hfailed => hfailed.resolve_right hid⟩
  refine h.of_step client (fun id key hkey => ?_) (fun id hid => ?_) (fun id hid key _ howes => ?_)
    (fun key hkey => ?_) ?_
  · refine h.registered id key ?_
    rw [← (hclients id).1]
    exact hkey
  · exact ⟨update_of_ne hid _ _, (hclients id).1, fun hfailed => (hclients id).2 (.inl hfailed)⟩
  · by_cases htarget : id = target
    · exact .inl ((hclients id).2 (.inr htarget))
    · refine .inr ?_
      unfold Owes onConnection
      simp only [update_self]
      exact howes.imp_left (mem_erase_of_ne htarget).mpr
  · simp only [onConnection, update_self] at hkey ⊢
    exact h.within client key hkey
  · refine (h.guarded client).alone ?_ ?_ ?_ (h.within client) (hclients client).1
      (fun hfailed => (hclients client).2 (.inl hfailed))
      fun other hother key _ howes => .inr (howes.of_eq (update_of_ne hother _ _))
    · simp only [onConnection, update_self]
      rfl
    · simp only [onConnection, update_self]
      rfl
    · simp only [onConnection, update_self]
      rfl

/-- **`UnwatchAll`** takes back the watches of one connection. -/
theorem Guarded.unwatch (hstep : s.step x (.unwatch client) = some s') : Guarded s' := by
  simp only [Watching.step] at hstep
  cases hphase : (s.connections client).phase with
  | unwatching goesOn =>
    rw [hphase] at hstep
    cases hstep
    refine h.own rfl rfl (fun id key hkey => ?_) (fun _ _ _ _ howes => howes) (h.within client) ?_
    · simp only [updateClient] at hkey
      by_cases hid : id = client
      · subst hid
        rw [update_self] at hkey
        cases hkey
      · rw [update_of_ne hid] at hkey
        have hthere := h.registered id key hkey
        simp only
        split
        · exact mem_filter.mpr ⟨hthere, decide_eq_true hid⟩
        · exact hthere
    · have hguarded := h.guarded client
      unfold GuardedAt at hguarded ⊢
      rw [hphase] at hguarded
      simp only [onConnection, update_self]
      cases goesOn with
      | false => trivial
      | true => exact hguarded
  | _ =>
    rw [hphase] at hstep
    cases hstep

/-- **`ClearTransactionFailure`**: past the check there is nothing to forget. -/
theorem Guarded.clear (hstep : s.step x (.clear client) = some s') : Guarded s' := by
  simp only [Watching.step] at hstep
  cases hphase : (s.connections client).phase with
  | clearing goesOn =>
    rw [hphase] at hstep
    cases goesOn with
    | true =>
      cases hstep
      have hguarded := h.guarded client
      unfold GuardedAt at hguarded
      rw [hphase] at hguarded
      refine h.own rfl rfl (h.registered_of_update fun _ hkey => hkey) (fun _ _ _ _ howes => howes)
        (h.within client) ?_
      exact guardedAt_of_connection (update_self _ _ _) trivial hguarded
    | false =>
      cases hstep
      refine h.own rfl rfl (h.registered_of_update fun _ hkey => hkey) (fun _ _ _ _ howes => howes)
        (fun _ hkey => hkey.elim) ?_
      unfold GuardedAt onConnection
      simp only [update_self]
      exact ⟨fun _ hkey => (nomatch hkey), fun _ hkey => hkey.elim⟩
  | _ =>
    rw [hphase] at hstep
    cases hstep

/-- The history of a connection ends with its first queued command. -/
theorem Guarded.forget (client : Nat) {phase : Phase}
    (hphase : phase = .ready ∨ ∃ queue, phase = .running queue) :
    Guarded (s.onConnection client fun c =>
      { c with phase := phase, since := [], changed := fun _ => False }) := by
  refine h.own rfl (update_eq_self client _).symm h.registered (fun _ _ _ _ howes => howes)
    (fun _ hkey => hkey.elim) ?_
  unfold GuardedAt onConnection
  simp only [update_self]
  rcases hphase with rfl | ⟨queue, rfl⟩
  · exact ⟨fun _ hkey => (nomatch hkey), fun _ hkey => hkey.elim⟩
  · trivial

/-- **A queued command.** -/
theorem Guarded.runQueued
    (hsettled : s.settledTouches client = true) (queued : QueuedCommand) (rest : List QueuedCommand)
    (htimely : ∀ c, s.admitQueued x client env queued.request = some c →
      s.Harmless x client ⟨env, c, queued.request.args⟩) :
    Guarded ((s.onConnection client fun c =>
      { c with phase := .running rest, since := [], changed := fun _ => False }).runQueued x client
        env queued.request) := by
  have hforget := h.forget client (.inr ⟨rest, rfl⟩)
  unfold Watching.runQueued
  split
  · exact hforget
  · rename_i c hadmission
    have hplain := admitQueued_plain hadmission
    have hcontrol : c ≠ .exec ∧ c ≠ .watch := by
      refine ⟨?_, ?_⟩ <;>
      · rintro rfl
        cases hplain
    refine hforget.dispatch ?_ ?_ (fun hc => ?_) fun hc => absurd hc hcontrol.1
    · rw [settledTouches_iff] at hsettled ⊢
      simp only [onConnection, update_self]
      exact hsettled
    · intro other hother hpast key hkey
      simp only [onConnection, update_of_ne hother] at hpast hkey
      exact htimely c hadmission other hother hpast key hkey
    · rcases hc with hc | hc
      · exact absurd hc hcontrol.1
      · exact absurd hc hcontrol.2

/-- **A timely step keeps the connections guarded.** -/
theorem Guarded.step {a : WatchStep}
    (htimely : s.Timely x a) (hstep : s.step x a = some s') : Guarded s' := by
  cases a with
  | request client env request =>
    simp only [Watching.step] at hstep
    split at hstep
    · rename_i hphase
      obtain ⟨hsettled, hbegin⟩ := Option.ite_none_right_eq_some.mp hstep
      cases hbegin
      exact h.begin hphase hsettled htimely
    · cases hstep
  | snapshot client =>
    simp only [Watching.step] at hstep
    split at hstep
    · cases hstep
    · rename_i keys rest htouches
      obtain ⟨hmarks, hmarked⟩ := Option.ite_none_right_eq_some.mp hstep
      cases hmarked
      exact h.snapshot htouches hmarks
  | mark client target =>
    simp only [Watching.step] at hstep
    obtain ⟨-, hmarked⟩ := Option.ite_none_right_eq_some.mp hstep
    cases hmarked
    exact h.mark client target
  | unwatch client => exact h.unwatch hstep
  | clear client => exact h.clear hstep
  | queued client env =>
    simp only [Watching.step] at hstep
    obtain ⟨hsettled, hqueued⟩ := Option.ite_none_right_eq_some.mp hstep
    simp only [Timely] at htimely
    split at hqueued
    · cases hqueued
      exact h.forget client (.inl rfl)
    · cases hqueued
      exact h.forget client (.inl rfl)
    · rename_i queued rest hphase
      cases hqueued
      rw [hphase] at htimely
      exact h.runQueued hsettled queued rest htimely
    · rename_i queued rest hphase
      cases hqueued
      rw [hphase] at htimely
      exact h.runQueued hsettled queued rest htimely
    · cases hqueued

end

/-- **No lost update**: in every run of the connections whose steps are all timely, a transaction
that comes to run its queue was not overtaken by a change of a key it watches. -/
theorem no_lost_update (x : Executor) (store : Store) (steps : List WatchStep)
    (h : Machine.Heeds (Watching.step x) (Timely x) steps (started store)) :
    Machine.Always (Watching.step x) NoLostUpdate steps (started store) :=
  (Machine.always_of_heeds (fun hs ht hstep => Guarded.step hs ht hstep) (guarded_started store)
    h).mono fun _ hguarded => hguarded.noLostUpdate

/-- A request in the first second. -/
def send (client : Nat) (name : String) (args : List String) : WatchStep :=
  .request client (.frozen firstSecond) ⟨ascii name, args.map ascii⟩

/-- Client 1 writes the key that client 0 watches, and touches it before the `EXEC`. -/
def touchedFirst : List WatchStep :=
  [send 0 "WATCH" ["k"], send 0 "MULTI" [], send 0 "SET" ["k", "a"], send 1 "SET" ["k", "b"],
    .snapshot 1, .mark 1 0, send 0 "EXEC" [], .unwatch 0, .clear 0]

theorem no_lost_update_touched :
    (∃ s, Machine.run (Watching.step .quiet) touchedFirst (started (.newStore fun _ => 0)) = some s ∧
      s.world.store.view (ascii "k") = some ⟨.string (ascii "b"), 0⟩) ∧
      Machine.Always (Watching.step .quiet) NoLostUpdate touchedFirst
        (started (.newStore fun _ => 0)) := by
  -- nobody is past its check, and the EXEC finds its mark
  have htimely : ∀ (s : Watching) (client : Nat) (env : Env) (request : Request),
      (∀ other, (s.connections other).phase = .ready) →
      (s.admission .quiet client env request = .runs .exec →
        (s.world.clients client).txFailed = true) →
        s.Timely .quiet (.request client env request) := by
    intro s client env request hready hmarked c hc
    refine ⟨fun hexec hfailed => ?_, fun other _ hpast => ?_⟩
    · rw [hmarked (hexec ▸ hc)] at hfailed
      cases hfailed
    · rw [hready other] at hpast
      exact hpast.elim
  have hheeds : Machine.Heeds (Watching.step .quiet) (Timely .quiet) touchedFirst
      (started (.newStore fun _ => 0)) := by
    rintro _ ⟨⟩
    refine ⟨htimely _ _ _ _ (fun _ => rfl) nofun, ?_⟩
    rintro _ ⟨⟩
    refine ⟨htimely _ _ _ _ (fun | 0 => rfl | _ + 1 => rfl) nofun, ?_⟩
    rintro _ ⟨⟩
    refine ⟨htimely _ _ _ _ (fun | 0 => rfl | _ + 1 => rfl) nofun, ?_⟩
    rintro _ ⟨⟩
    refine ⟨htimely _ _ _ _ (fun | 0 => rfl | _ + 1 => rfl) nofun, ?_⟩
    rintro _ ⟨⟩
    refine ⟨trivial, ?_⟩
    rintro _ ⟨⟩
    refine ⟨trivial, ?_⟩
    rintro _ ⟨⟩
    exact ⟨htimely _ _ _ _ (fun | 0 => rfl | 1 => rfl | _ + 2 => rfl) (fun _ => rfl),
      fun _ _ => ⟨trivial, fun _ _ => ⟨trivial, trivial⟩⟩⟩
  exact ⟨⟨_, rfl, rfl⟩, no_lost_update .quiet _ _ hheeds⟩

/-- Client 0 looks at its mark after client 1 wrote the key it watches, and before client 1 touches
it. -/
def overtaken : List WatchStep :=
  [send 0 "WATCH" ["k"], send 0 "MULTI" [], send 0 "SET" ["k", "a"], send 1 "SET" ["k", "b"],
    send 0 "EXEC" [], .unwatch 0, .clear 0]

/-- The transaction is about to overwrite what the other client wrote. -/
theorem lost_update :
    ¬Machine.Always (Watching.step .quiet) NoLostUpdate overtaken
      (started (.newStore fun _ => 0)) := by
  intro h
  have hstart := h.last rfl
  have hnow : firstSecond.millis ≤ 1000 := by decide
  refine hstart 0 _ rfl (ascii "k") (.inr ⟨mem_cons_self, ⟨_, rfl⟩, 1000, fun _ => hnow, ?_⟩)
  intro hsame
  cases congrArg Option.isSome hsame

end Watching

end Stash
