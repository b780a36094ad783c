import Stash.Machine
import Stash.RequestRuns

/-!
# Sessions of a connection

What a connection may do depends on its mode.  Without the password it may only say PING and AUTH:
the checks in front of the dispatch turn every other request away, so that the answers depend on the
requests alone (`unauthenticated_learns_nothing`).

A connection is inside a transaction, subscribed to channels, or monitoring, and never two of them at
once (`modes_exclude`).  The dispatcher, the queue and five handlers each test a part of that; the
invariant `Orderly` says what they keep together.
-/

namespace Stash

open DecimalText GoMap Handlers List

namespace Executor

variable (x : Executor)

/-- `createClientState`: without a password every connection is authenticated. -/
def createClientState : ClientState :=
  { ClientState.fresh with authenticated := x.requirePass = [] }

/-! ## Without the password -/

/-- Requests one after the other on a connection, each with its surroundings. -/
def dialogue (ctx : Context) :
    List ((Nat → Env) × Value) → World → World × List (Except Failure ExecuteResult)
  | [], w => (w, [])
  | (envs, value) :: rest, w =>
    let first := x.executeDetailed ctx envs value w
    let others := dialogue ctx rest first.1
    (others.1, first.2 :: others.2)

/-- What a client without the password is told. -/
def restrictedAnswer (rt : Runtime) (value : Value) : Except Failure ExecuteResult :=
  match decodeRequest rt value with
  | .error err => .error (.refused err)
  | .ok request =>
    if request.name = CommandName.ping.text then
      ((maxArgs .ping 1 request.args).bind fun _ => handlePing request.args).mapError .refused
    else if request.name = CommandName.auth.text then
      ((exactArgs .auth 1 request.args).bind fun _ => .error .wrongPass).mapError .refused
    else .error (.refused .noAuth)

/-- The client of a context is new. -/
def StartsAnew (ctx : Context) (w : World) : Prop :=
  ctx.origin = false ∧ ∃ id, ctx.client = some id ∧ w.clients id = x.createClientState

variable {x}

variable {ctx : Context} {w : World}

section

variable (h : x.StartsAnew ctx w)
include h

theorem StartsAnew.clientState : w.clientState ctx = some x.createClientState := by
  obtain ⟨-, id, hclient, hnew⟩ := h
  rw [World.clientState, hclient, Option.map_some, hnew]

section

variable (hset : x.requirePass ≠ [])
include hset

/-- The checks in front of the dispatch let PING and AUTH through. -/
theorem StartsAnew.validateContext (request : Request) :
    x.validateContext ctx request w =
      if request.name = CommandName.auth.text ∨ request.name = CommandName.ping.text then .ok ()
      else .error .noAuth := by
  simp only [Executor.validateContext, validateSubscriptionContext, validateAuthContext,
    h.clientState, if_neg hset, isAllowedUnauthenticatedCommand, h.1]
  simp [createClientState, ClientState.fresh, ClientState.isSubscribed, hset, bind, Except.bind]

/-- **A request without the password changes nothing**, and its answer depends on the request
alone. -/
theorem StartsAnew.executeDetailed (envs : Nat → Env) {value : Value}
    (hvalue : decodeRequest x.rt value ≠ .ok ⟨CommandName.auth.text, [x.requirePass]⟩) :
    x.executeDetailed ctx envs value w = (w, restrictedAnswer x.rt value) := by
  unfold Executor.executeDetailed restrictedAnswer
  cases hdecode : decodeRequest x.rt value with
  | error err => rfl
  | ok request =>
    obtain ⟨name, args⟩ := request
    have hqueue : x.maybeQueueRequest ctx ⟨name, args⟩ ((envs 0).clock 0) w = none := by
      unfold maybeQueueRequest
      rw [h.clientState]
      rfl
    unfold executeRequest
    simp only [h.validateContext hset, hqueue]
    by_cases hping : name = CommandName.ping.text
    · subst hping
      simp only [or_true, if_true, lookup, CommandName.ofText_text, CommandName.validate]
      cases maxArgs CommandName.ping 1 args with
      | error err => rfl
      | ok _ =>
        simp only [Except.map, runCommand, storeHandler, runOther, Except.bind]
        rcases args with _ | ⟨message, _ | ⟨second, args⟩⟩ <;>
          simp [handlePing, Except.mapError, propagationFrames, CommandName.propagates,
            evictionFrames, Reply.plain, ExecuteResult.ofResponses]
    · by_cases hauth : name = CommandName.auth.text
      · subst hauth
        simp only [true_or, if_true, if_neg hping, lookup, CommandName.ofText_text,
          CommandName.validate]
        by_cases hone : args.length = 1
        · have hargs : args ≠ [x.requirePass] := by
            rintro rfl
            exact hvalue hdecode
          simp [exactArgs, hone, Except.map, Except.bind, runCommand, storeHandler, runOther, hset,
            onClient, h.clientState, handleAuth, hargs, Except.mapError]
        · simp [exactArgs, hone, Except.map, Except.bind, Except.mapError]
      · simp only [hping, hauth, or_self, if_false]

theorem StartsAnew.dialogue {requests : List ((Nat → Env) × Value)}
    (hrequests : ∀ p ∈ requests,
      decodeRequest x.rt p.2 ≠ .ok ⟨CommandName.auth.text, [x.requirePass]⟩) :
    x.dialogue ctx requests w = (w, requests.map fun p => restrictedAnswer x.rt p.2) := by
  induction requests with
  | nil => rfl
  | cons p requests ih =>
    obtain ⟨envs, value⟩ := p
    have hfirst := h.executeDetailed hset envs (hrequests _ mem_cons_self)
    simp only [Executor.dialogue, hfirst, map_cons]
    rw [ih fun q hq => hrequests q (mem_cons_of_mem _ hq)]

end

end

/-- **Without the password a client learns and changes nothing**: the store and every connection
(what it watches, the channels it is subscribed to, whether it monitors, replicates, is authenticated
or inside a transaction) stay as they are, and another server with the same password answers the same,
whatever its store, its connections and its clock. -/
theorem unauthenticated_learns_nothing {y : Executor} (hrt : y.rt = x.rt)
    (hpass : y.requirePass = x.requirePass) (hset : x.requirePass ≠ []) {ctx ctx' : Context}
    {w w' : World} (hw : x.StartsAnew ctx w) (hw' : y.StartsAnew ctx' w')
    {requests requests' : List ((Nat → Env) × Value)}
    (hsame : requests'.map Prod.snd = requests.map Prod.snd)
    (hrequests : ∀ p ∈ requests,
      decodeRequest x.rt p.2 ≠ .ok ⟨CommandName.auth.text, [x.requirePass]⟩) :
    (x.dialogue ctx requests w).1 = w ∧
      (y.dialogue ctx' requests' w').2 = (x.dialogue ctx requests w).2 := by
  have hrequests' : ∀ p ∈ requests',
      decodeRequest y.rt p.2 ≠ .ok ⟨CommandName.auth.text, [y.requirePass]⟩ := by
    intro p hp
    have hmem : p.2 ∈ requests.map Prod.snd := hsame ▸ mem_map_of_mem hp
    obtain ⟨q, hq, heq⟩ := mem_map.mp hmem
    rw [hrt, hpass, ← heq]
    exact hrequests q hq
  rw [hw.dialogue hset hrequests, hw'.dialogue (by rwa [hpass]) hrequests']
  refine ⟨rfl, ?_⟩
  have hmap := congrArg (List.map (restrictedAnswer x.rt)) hsame
  rw [map_map, map_map] at hmap
  rw [hrt]
  exact hmap

/-- A quiet server with a password. -/
def guarded (replies : Nat) : Executor :=
  { Executor.quiet with
    requirePass := ascii "secret"
    deliverPubSubMessage := fun _ _ _ => replies }

/-- Whether the key is set is not to be seen. -/
theorem unauthenticated_learns_nothing_get :
    ((guarded 0).dialogue (.ofClient 0) [(fun _ => .frozen firstSecond,
      commandFrame [ascii "GET", ascii "k"])] ⟨.newStore fun _ => 0, fun _ => .fresh⟩).2 =
    ((guarded 1).dialogue (.ofClient 0) [(fun _ => .frozen firstSecond,
      commandFrame [ascii "GET", ascii "k"])] ⟨((Store.newStore fun _ => 0).set (ascii "k")
        (ascii "v") 0 (.frozen firstSecond)).1, fun _ => .fresh⟩).2 := by
  refine (@unauthenticated_learns_nothing (guarded 1) (guarded 0) rfl rfl (by decide) (.ofClient 0)
    (.ofClient 0) ⟨_, fun _ => .fresh⟩ ⟨_, fun _ => .fresh⟩ ⟨rfl, 0, rfl, rfl⟩ ⟨rfl, 0, rfl, rfl⟩ _ _
    rfl ?_).2
  intro p hp
  obtain rfl := mem_singleton.mp hp
  decide

end Executor

/-! ## The modes of a connection -/

/-- **At most one mode at a time**; outside a transaction nothing is queued and nothing is dirty, and
what is queued is a registered command, none that controls transactions, with arguments its validator
accepted. -/
structure ClientState.Orderly (rt : Runtime) (c : ClientState) : Prop where
  transaction : c.inTransaction = true → c.isSubscribed = false ∧ c.monitoring = false
  monitor : c.monitoring = true → c.isSubscribed = false
  idle : c.inTransaction = false → c.txQueue = [] ∧ c.txDirty = false
  queue : ∀ q ∈ c.txQueue, ∃ command now, CommandName.ofText q.request.name = some command ∧
    command.transactionControl = false ∧ command.validate rt q.request.args now = .ok ()

namespace ClientState

variable {rt : Runtime} {c c' : ClientState}

/-- Nothing that the modes depend on changed. -/
theorem Orderly.congr (h : c.Orderly rt) (htransaction : c'.inTransaction = c.inTransaction)
    (hmonitoring : c'.monitoring = c.monitoring)
    (hchannels : c'.subscribedChannels = c.subscribedChannels) (hqueue : c'.txQueue = c.txQueue)
    (hdirty : c'.txDirty = c.txDirty) : c'.Orderly rt := by
  have hsubscribed : c'.isSubscribed = c.isSubscribed := by
    unfold isSubscribed
    rw [hchannels]
  constructor
  · rw [htransaction, hsubscribed, hmonitoring]
    exact h.transaction
  · rw [hsubscribed, hmonitoring]
    exact h.monitor
  · rw [htransaction, hqueue, hdirty]
    exact h.idle
  · rw [hqueue]
    exact h.queue

/-- A transaction ends, however it ends. -/
theorem Orderly.ended (h : c.Orderly rt) (htransaction : c'.inTransaction = false)
    (hmonitoring : c'.monitoring = c.monitoring)
    (hchannels : c'.subscribedChannels = c.subscribedChannels) (hqueue : c'.txQueue = [])
    (hdirty : c'.txDirty = false) : c'.Orderly rt := by
  refine ⟨fun hin => ?_, ?_, fun _ => ⟨hqueue, hdirty⟩, fun q hq => ?_⟩
  · rw [htransaction] at hin
    cases hin
  · unfold isSubscribed
    rw [hmonitoring, hchannels]
    exact h.monitor
  · rw [hqueue] at hq
    cases hq

/-- Outside of a transaction, a connection that does not monitor may change its channels. -/
theorem Orderly.channels (h : c.Orderly rt) (houtside : c.inTransaction = false)
    (hmonitoring : c.monitoring = false) (channels : List Bytes) :
    Orderly rt { c with subscribedChannels := channels } := by
  refine ⟨fun hin => ?_, fun hmonitors => ?_, h.idle, h.queue⟩
  · rw [houtside] at hin
    cases hin
  · rw [hmonitoring] at hmonitors
    cases hmonitors

/-- The modes in which a command gets to its handler. -/
def Permits (command : CommandName) (c : ClientState) : Prop :=
  (c.monitoring = true → command = .ping) ∧
    (c.isSubscribed = true → command = .ping ∨ command = .subscribe ∨ command = .unsubscribe)

theorem Permits.not_monitoring {command : CommandName} (h : Permits command c)
    (hping : command ≠ .ping) : c.monitoring = false := by
  by_cases hmonitoring : c.monitoring = true
  · exact absurd (h.1 hmonitoring) hping
  · simpa using hmonitoring

end ClientState

namespace Executor

variable (x : Executor)

/-- Every connection is in order. -/
def Orderly (w : World) : Prop :=
  ∀ id, (w.clients id).Orderly x.rt

variable {x} {w : World} {ctx : Context}

section

variable (h : x.Orderly w)
include h

theorem Orderly.clientState {state : ClientState}
    (hstate : w.clientState ctx = some state) : state.Orderly x.rt := by
  obtain ⟨id, -, rfl⟩ := Option.map_eq_some_iff.mp hstate
  exact h id

theorem Orderly.updateContext {f : ClientState → ClientState}
    (hf : ∀ state, w.clientState ctx = some state → (f state).Orderly x.rt) :
    x.Orderly (w.updateContext ctx f) := by
  intro id
  unfold World.updateContext
  cases hclient : ctx.client with
  | none => exact h id
  | some id' =>
    by_cases hid : id = id'
    · subst hid
      have hstate : w.clientState ctx = some (w.clients id) := by rw [World.clientState, hclient]; rfl
      simpa [World.updateClient] using hf _ hstate
    · simpa [World.updateClient, Function.update_of_ne hid] using h id

theorem Orderly.touchWatchKeys (keys : List Bytes) : x.Orderly (w.touchWatchKeys keys) := by
  intro id
  simp only [World.touchWatchKeys]
  split
  · exact (h id).congr rfl rfl rfl rfl rfl
  · exact h id

/-- A handler that keeps its connection in order. -/
theorem Orderly.onClient {handler : ClientState → Except CommandError (ClientState × List Value)}
    (hhandler : ∀ state state' responses, w.clientState ctx = some state → state.Orderly x.rt →
      handler state = .ok (state', responses) → state'.Orderly x.rt) :
    x.Orderly (onClient ctx w handler).1 := by
  unfold Executor.onClient
  split
  · exact h
  · rename_i state hstate
    split
    · exact h
    · rename_i state' responses hok
      exact h.updateContext fun _ _ => hhandler state state' responses hstate (h.clientState hstate) hok

theorem Orderly.runOther (env : Env) (c : CommandName) (args : List Bytes)
    (hpermits : ∀ state, w.clientState ctx = some state → state.Permits c) :
    x.Orderly (x.runOther ctx env c args w).1 := by
  cases c with
  | subscribe =>
    refine h.onClient fun state state' responses hstate horderly hok => ?_
    obtain ⟨houtside, channels, rfl⟩ := handleSubscribe_state hok
    exact horderly.channels houtside ((hpermits state hstate).not_monitoring (by decide)) channels
  | unsubscribe =>
    refine h.onClient fun state state' responses hstate horderly hok => ?_
    obtain ⟨houtside, channels, rfl⟩ := handleUnsubscribe_state hok
    exact horderly.channels houtside ((hpermits state hstate).not_monitoring (by decide)) channels
  | watch =>
    refine h.onClient fun state state' responses _ horderly hok => ?_
    unfold handleWatch at hok
    split at hok <;> cases hok
    exact horderly.congr rfl rfl rfl rfl rfl
  | multi =>
    refine h.onClient fun state state' responses hstate horderly hok => ?_
    have hmonitoring := (hpermits state hstate).not_monitoring (by decide)
    unfold handleMulti at hok
    split at hok
    · cases hok
    · rename_i hsubscribed
      split at hok <;> cases hok
      have houtside : state.isSubscribed = false := by simpa using hsubscribed
      exact ⟨fun _ => ⟨houtside, hmonitoring⟩, horderly.monitor, fun hout => (by cases hout),
        fun q hq => (by cases hq)⟩
  | discard =>
    refine h.onClient fun state state' responses _ horderly hok => ?_
    unfold handleDiscard at hok
    split at hok <;> cases hok
    exact horderly.ended rfl rfl rfl rfl rfl
  | monitor =>
    refine h.onClient fun state state' responses _ horderly hok => ?_
    unfold handleMonitor at hok
    split at hok
    · cases hok
    · rename_i houtside
      split at hok
      · cases hok
      · rename_i hsubscribed
        split at hok <;> cases hok
        have hnone : state.isSubscribed = false := by simpa using hsubscribed
        exact ⟨fun hin => absurd hin houtside, fun _ => hnone, horderly.idle, horderly.queue⟩
  | auth =>
    unfold Executor.runOther
    simp only
    split
    · exact h
    · refine h.onClient fun state state' responses _ horderly hok => ?_
      unfold handleAuth at hok
      split at hok <;> cases hok
      exact horderly.congr rfl rfl rfl rfl rfl
  | pSync =>
    unfold Executor.runOther handlePSync
    simp only
    split
    · exact h
    · exact h.updateContext fun state hstate =>
        (h.clientState hstate).congr rfl rfl rfl rfl rfl
  | _ => exact h

theorem Orderly.runCommand (env : Env) (c : CommandName) (request : Request)
    (hpermits : ∀ state, w.clientState ctx = some state → state.Permits c) :
    x.Orderly (x.runCommand ctx env c request w).1 := by
  unfold Executor.runCommand
  split
  · split
    · exact h
    · exact Orderly.touchWatchKeys (w := { w with store := _ }) h _
  · exact h.runOther env c request.args hpermits

end

/-- The checks in front of the dispatch. -/
theorem permits_of_validateContext {request : Request} {c : CommandName}
    (hname : request.name = c.text) (h : x.validateContext ctx request w = .ok ())
    {state : ClientState} (hstate : w.clientState ctx = some state) : state.Permits c := by
  have hcontext : validateSubscriptionContext ctx request w = .ok () := by
    unfold Executor.validateContext at h
    cases hresult : validateSubscriptionContext ctx request w with
    | error err =>
      rw [hresult] at h
      cases h
    | ok _ => rfl
  unfold validateSubscriptionContext at hcontext
  rw [hstate] at hcontext
  simp only at hcontext
  split at hcontext
  · cases hcontext
  · rename_i hsubscribed
    split at hcontext
    · cases hcontext
    · rename_i hmonitoring
      have hinj : ∀ {c' : CommandName}, c.text = c'.text → c = c' := fun heq =>
        Option.some.inj (by rw [← CommandName.ofText_text, heq, CommandName.ofText_text])
      refine ⟨fun hmonitors => ?_, fun hsubscribes => ?_⟩
      · simp only [hmonitors, isAllowedMonitoringModeCommand, hname] at hmonitoring
        exact hinj (by simpa using hmonitoring)
      · simp only [hsubscribes, isAllowedSubscribedModeCommand, hname] at hsubscribed
        by_cases hping : c.text = CommandName.ping.text
        · exact .inl (hinj hping)
        · by_cases hsubscribe : c.text = CommandName.subscribe.text
          · exact .inr (.inl (hinj hsubscribe))
          · exact .inr (.inr (hinj (by simpa [hping, hsubscribe] using hsubscribed)))

theorem Orderly.runRequest (h : x.Orderly w) (env : Env) (request : Request) :
    x.Orderly (x.runRequest ctx env request w).1 := by
  unfold Executor.runRequest
  split
  · exact h
  · rename_i hcontext
    split
    · exact h
    · rename_i c hlookup
      have hname : request.name = c.text := congrArg Request.name (x.lookup_ok hlookup).1
      exact h.runCommand env c request fun state => permits_of_validateContext hname hcontext

theorem Orderly.execLoop (queue : List QueuedCommand) (envs : Nat → Env) (h : x.Orderly w)
    (acc : ExecuteResult) : x.Orderly (x.execLoop ctx envs queue w acc).1 := by
  induction queue generalizing envs w acc with
  | nil => exact h
  | cons queued rest ih =>
    have hrun := @Orderly.runRequest x w ctx h (envs 0) queued.request
    unfold Executor.execLoop
    split
    · rename_i w' hresult
      rwa [hresult] at hrun
    · rename_i w' err hresult
      rw [hresult] at hrun
      exact ih _ hrun _
    · rename_i w' result hresult
      rw [hresult] at hrun
      split
      · exact ih _ hrun _
      · exact ih _ hrun _

theorem Orderly.handleExec (h : x.Orderly w) (envs : Nat → Env) :
    x.Orderly (x.handleExec ctx envs w).1 := by
  have hended : ∀ {f : ClientState → ClientState}, (∀ c : ClientState,
      (f c).inTransaction = false ∧ (f c).monitoring = c.monitoring ∧
        (f c).subscribedChannels = c.subscribedChannels ∧ (f c).txQueue = [] ∧
        (f c).txDirty = false) → x.Orderly (w.updateContext ctx f) := by
    intro f hf
    refine h.updateContext fun state hstate => ?_
    obtain ⟨h₁, h₂, h₃, h₄, h₅⟩ := hf state
    exact (h.clientState hstate).ended h₁ h₂ h₃ h₄ h₅
  unfold Executor.handleExec
  split
  · exact h
  · split
    · split
      · exact hended fun c => ⟨rfl, rfl, rfl, rfl, rfl⟩
      · split
        · exact hended fun c => ⟨rfl, rfl, rfl, rfl, rfl⟩
        · refine Orderly.execLoop _ _ (hended ?_) _
          exact fun c => ⟨rfl, rfl, rfl, rfl, rfl⟩
    · exact h

/-- What is queued was accepted by its validator. -/
theorem Orderly.maybeQueueRequest (h : x.Orderly w) {request : Request} {now : Instant}
    {answer : World × Except Failure ExecuteResult}
    (hqueue : x.maybeQueueRequest ctx request now w = some answer) : x.Orderly answer.1 := by
  unfold Executor.maybeQueueRequest at hqueue
  split at hqueue
  · cases hqueue
  · rename_i state hstate
    split_ifs at hqueue with hinside hplain
    have hinside' : ∀ P : Prop, state.inTransaction = false → P := by
      intro P hout
      rw [hinside] at hout
      cases hout
    have hstate' : ∀ other, w.clientState ctx = some other → other = state := by
      intro other hother
      exact Option.some.inj (hother.symm.trans hstate)
    split at hqueue
    · cases hqueue
      refine h.updateContext fun other hother => ?_
      have horderly := h.clientState hother
      obtain rfl := hstate' other hother
      exact ⟨horderly.transaction, horderly.monitor, hinside' _, horderly.queue⟩
    · rename_i c hlookup
      obtain ⟨hrequest, hvalid⟩ := x.lookup_ok hlookup
      cases hqueue
      refine h.updateContext fun other hother => ?_
      have horderly := h.clientState hother
      obtain rfl := hstate' other hother
      refine ⟨horderly.transaction, horderly.monitor, hinside' _, fun q hq => ?_⟩
      rcases mem_append.mp hq with hold | hnew
      · exact horderly.queue q hold
      · obtain rfl := mem_singleton.mp hnew
        have hname : request.name = c.text := congrArg Request.name hrequest
        refine ⟨c, now, by rw [hname]; exact CommandName.ofText_text c, ?_, hvalid⟩
        rw [isTransactionControlCommand, hname, CommandName.ofText_text] at hplain
        exact hplain

/-- **A request keeps every connection in order.** -/
theorem Orderly.executeDetailed (h : x.Orderly w) (envs : Nat → Env) (value : Value) :
    x.Orderly (x.executeDetailed ctx envs value w).1 := by
  unfold Executor.executeDetailed
  split
  · exact h
  · rename_i request _
    unfold Executor.executeRequest
    split
    · exact h
    · rename_i hcontext
      split
      · rename_i answer hqueue
        exact h.maybeQueueRequest hqueue
      · split
        · exact h
        · exact h.handleExec _
        · rename_i c _ hlookup
          have hname : request.name = c.text := congrArg Request.name (x.lookup_ok hlookup).1
          exact h.runCommand _ c request fun state => permits_of_validateContext hname hcontext

variable (x)

/-- A request, the connection it comes from and the networking mode. -/
structure ClientRequest where
  id : Nat
  inline : Bool
  envs : Nat → Env
  value : Value

/-- The server takes a request. -/
def serve (w : World) (r : ClientRequest) : Option World :=
  some (x.executeDetailed ⟨some r.id, false, r.inline⟩ r.envs r.value w).1

/-- **The modes of a connection exclude each other**, in every state of every server, whatever its
clients send. -/
theorem modes_exclude (hash : Bytes → Fin 256) (requests : List ClientRequest) :
    Machine.Always x.serve (fun w => ∀ id, (w.clients id).Orderly x.rt) requests
      ⟨.newStore hash, fun _ => x.createClientState⟩ := by
  have hstart : x.Orderly ⟨.newStore hash, fun _ => x.createClientState⟩ :=
    fun _ => ⟨fun hin => (by cases hin), fun hmonitors => (by cases hmonitors),
      fun _ => ⟨rfl, rfl⟩, fun q hq => (by cases hq)⟩
  refine Machine.always_of_heeds (C := fun _ _ => True) (fun {w r w'} hw _ hstep => ?_) hstart
    (Machine.heeds_of_forall (fun _ _ => trivial) _)
  cases hstep
  exact Orderly.executeDetailed hw r.envs r.value

end Executor

end Stash
