import Stash.RequestRuns

/-!
# Queues, cancellation and propagation

Three facts about requests that hold along whole runs of the server: a queue only ever holds
requests its client sent; only BLPOP and WAIT can end with their connection, so an `EXEC` whose queue
has neither returns its frames; and outside the replication stream a request that neither adds to a
stream nor publishes propagates exactly what it logs.
-/

namespace Stash

open DecimalText GoMap Handlers List

namespace Executor

variable (x : Executor)

/-! ## Queues -/

/-- Every queued command satisfies `P`. -/
def Queued (P : Request → Prop) (w : World) : Prop :=
  ∀ id, ∀ queued ∈ (w.clients id).txQueue, P queued.request

variable {P : Request → Prop} {w : World} {request : Request} {ctx : Context} {α : Type}
    {c : CommandName}

section

variable (h : Queued P w)
include h

/-- What is done to one connection keeps the queues if it keeps that connection's. -/
theorem Queued.updateContext (ctx : Context)
    {f : ClientState → ClientState}
    (hf : ∀ state, w.clientState ctx = some state → (∀ q ∈ state.txQueue, P q.request) →
      ∀ q ∈ (f state).txQueue, P q.request) : Queued P (w.updateContext ctx f) := by
  unfold World.updateContext
  split
  · exact h
  · rename_i id' hclient
    have hstate : w.clientState ctx = some (w.clients id') := by
      rw [World.clientState, hclient]
      rfl
    intro id queued hqueued
    by_cases hid : id = id'
    · subst hid
      simp only [World.updateClient, Function.update_self] at hqueued
      exact hf _ hstate (h id) queued hqueued
    · simp only [World.updateClient, Function.update_of_ne hid] at hqueued
      exact h id queued hqueued

theorem Queued.touchWatchKeys (keys : List Bytes) : Queued P (w.touchWatchKeys keys) := by
  intro id queued hqueued
  simp only [World.touchWatchKeys] at hqueued
  split at hqueued
  · exact h id queued hqueued
  · exact h id queued hqueued

theorem Queued.runOther (ctx : Context) (env : Env) (c : CommandName)
    (args : List Bytes) : Queued P (x.runOther ctx env c args w).1 := by
  rcases x.runOther_changes ctx env c args w with heq | ⟨state, state', hstate, hchange, heq⟩
  · rw [heq]
    exact h
  · rw [heq]
    refine h.updateContext ctx fun state₀ hstate₀ hqueue q hq => ?_
    obtain rfl : state₀ = state := Option.some.inj (hstate₀.symm.trans hstate)
    -- MULTI and DISCARD leave an empty queue, the others the queue as it is
    cases hchange with
    | mode | watch => exact hqueue q hq
    | multi | discard => cases hq

theorem Queued.runCommand (ctx : Context) (env : Env) (c : CommandName)
    (request : Request) : Queued P (x.runCommand ctx env c request w).1 := by
  have hstore : ∀ s : Store, Queued P { w with store := s } := fun _ => h
  unfold Executor.runCommand
  split
  · split
    · exact hstore _
    · exact (hstore _).touchWatchKeys _
  · exact h.runOther x ctx env c request.args

end

theorem Queued.runRequest {P : Request → Prop} {w : World} (h : Queued P w) (ctx : Context)
    (env : Env) (request : Request) : Queued P (x.runRequest ctx env request w).1 := by
  unfold Executor.runRequest
  split
  · exact h
  · split
    · exact h
    · exact h.runCommand x ctx env _ request

theorem Queued.execLoop (ctx : Context) (queue : List QueuedCommand) (envs : Nat → Env)
    (h : Queued P w) (acc : ExecuteResult) : Queued P (x.execLoop ctx envs queue w acc).1 := by
  induction queue generalizing envs w acc with
  | nil => exact h
  | cons queued queue ih =>
    have hstep := h.runRequest x ctx (envs 0) queued.request
    rw [Executor.execLoop]
    split
    · rename_i heq
      rw [heq] at hstep
      exact hstep
    · rename_i heq
      rw [heq] at hstep
      exact ih _ hstep _
    · rename_i heq
      rw [heq] at hstep
      split
      · exact ih _ hstep _
      · exact ih _ hstep _

theorem Queued.handleExec (h : Queued P w) (ctx : Context)
    (envs : Nat → Env) : Queued P (x.handleExec ctx envs w).1 := by
  have hdropped : ∀ {f : ClientState → ClientState}, (∀ state, (f state).txQueue = []) →
      Queued P (w.updateContext ctx f) := by
    intro f hf
    refine h.updateContext ctx fun state _ _ q hq => ?_
    rw [hf] at hq
    cases hq
  unfold Executor.handleExec
  split
  · exact h
  · split
    · split
      · exact hdropped fun _ => rfl
      · split
        · exact hdropped fun _ => rfl
        · exact Queued.execLoop x ctx _ envs (hdropped fun _ => rfl) _
    · exact h

/-- **A queue only holds requests that were sent.** -/
theorem Queued.executeRequest (h : Queued P w) (ctx : Context) (envs : Nat → Env)
    (hrequest : P request) : Queued P (x.executeRequest ctx envs request w).1 := by
  unfold Executor.executeRequest
  split
  · exact h
  · split
    · rename_i answer hanswer
      refine x.maybeQueue_rule hanswer (fun _ _ => h.updateContext ctx fun _ _ hqueue => hqueue)
        fun _ => h.updateContext ctx fun state _ hqueue q hq => ?_
      rcases mem_append.mp hq with hq | hq
      · exact hqueue q hq
      · obtain rfl := mem_singleton.mp hq
        exact hrequest
    · split
      · exact h
      · exact h.handleExec x ctx _
      · exact h.runCommand x ctx _ _ request

/-! ## The outcomes of a request -/

/-- Every outcome of a request is a refusal, an answer without frames, that of its command or that
of its queue. -/
theorem executeRequest_rule {Q : Except Failure ExecuteResult → Prop}
    {envs : Nat → Env} (hrefused : ∀ err, Q (.error (.refused err)))
    (hquiet : ∀ responses, Q (.ok (.ofResponses responses)))
    (hcommand : ∀ c, x.lookup request ((envs 0).clock 0) = .ok c →
      Q (x.runCommand ctx (envs 0) c request w).2)
    (hexec : ∀ state, w.clientState ctx = some state → ∀ w',
      Q (x.execLoop ctx (fun i => envs (i + 1)) state.txQueue w' (.ofResponses [])).2) :
    Q (x.executeRequest ctx envs request w).2 := by
  unfold executeRequest
  split
  · exact hrefused _
  · split
    · rename_i answer hanswer
      exact x.maybeQueue_rule hanswer (fun err _ => hrefused err) fun _ => hquiet _
    · split
      · exact hrefused _
      · unfold handleExec
        split
        · exact hrefused _
        · rename_i state hstate
          split
          · split
            · exact hrefused _
            · split
              · exact hquiet _
              · exact hexec state hstate _
          · exact hrefused _
      · rename_i c _ hlookup
        exact hcommand c hlookup

theorem Queued.clientState (h : Queued P w) {state : ClientState}
    (hstate : w.clientState ctx = some state) : ∀ queued ∈ state.txQueue, P queued.request := by
  rw [World.clientState, Option.map_eq_some_iff] at hstate
  obtain ⟨id, -, rfl⟩ := hstate
  exact h id

/-! ## Cancellation -/

/-- The outcome is not the end of the connection. -/
def NotCanceled {α : Type} (outcome : Except Failure α) : Prop :=
  outcome ≠ .error .canceled

theorem notCanceled_refused (err : CommandError) :
    NotCanceled (.error (.refused err) : Except Failure α) :=
  fun h => by cases h

theorem notCanceled_mapError (result : Except CommandError α) :
    NotCanceled (result.mapError Failure.refused) := by
  cases result with
  | error err => exact notCanceled_refused err
  | ok a => exact fun h => by cases h

theorem NotCanceled.map {β : Type} {outcome : Except Failure α} (h : NotCanceled outcome)
    (f : α → β) : NotCanceled (outcome.map f) := by
  cases outcome with
  | error failure => exact fun h' => h (congrArg Except.error (Except.error.inj h'))
  | ok a => exact fun h' => by cases h'

theorem handler_not_canceled {rt : Runtime} {inline : Bool}
    {handler : Store → List Bytes → Env → Handled} (hc : storeHandler rt inline c = some handler)
    (hblpop : c ≠ .blPop) (s : Store) (args : List Bytes) (env : Env) :
    NotCanceled (handler s args env).2 := by
  have heffect := storeHandler_effect hc s args env
  have hfits := effect_fits rt c args (env.clock 1)
  generalize handler s args env = result at heffect
  cases hkind : c.effect rt args (env.clock 1) with
  | refuse =>
    rw [hkind] at heffect
    obtain ⟨-, err, herr⟩ := heffect
    rw [herr]
    exact notCanceled_refused err
  | read =>
    rw [hkind] at heffect
    rcases heffect.reply with ⟨err, herr⟩ | ⟨response, hresponse⟩
    · rw [herr]
      exact notCanceled_refused err
    · rw [hresponse]
      exact fun h => by cases h
  | take key =>
    rw [hkind] at hfits
    exact absurd hfits.1 hblpop
  | delete keys =>
    rw [hkind] at heffect
    obtain ⟨-, reply, hreply, -⟩ := heffect
    rw [hreply]
    exact fun h => by cases h
  | write key m =>
    rw [hkind] at heffect
    obtain ⟨-, hanswer⟩ := heffect
    split at hanswer
    · obtain ⟨reply, hreply, -⟩ := hanswer
      rw [hreply]
      exact fun h => by cases h
    · rw [hanswer]
      exact notCanceled_refused _

theorem onClient_not_canceled (ctx : Context) (w : World)
    (handler : ClientState → Except CommandError (ClientState × List Value)) :
    NotCanceled (onClient ctx w handler).2 := by
  unfold onClient
  split
  · exact notCanceled_refused _
  · split
    · exact notCanceled_refused _
    · exact fun h => by cases h

theorem runOther_not_canceled (hwait : c ≠ .wait) (ctx : Context) (env : Env)
    (args : List Bytes) (w : World) : NotCanceled (x.runOther ctx env c args w).2 := by
  cases c with
  | wait => exact absurd rfl hwait
  | subscribe | unsubscribe | watch | multi | discard | monitor =>
    exact onClient_not_canceled ctx w _
  | auth =>
    unfold runOther
    simp only
    split
    · exact notCanceled_refused _
    · exact onClient_not_canceled ctx w _
  | ping | echo | replConf | info => exact notCanceled_mapError _
  | bgRewriteAOF => exact (notCanceled_mapError _).map _
  | pSync =>
    unfold runOther handlePSync
    simp only
    split
    · exact notCanceled_refused _
    · exact fun h => by cases h
  | publish | slowlog => exact fun h => by cases h
  | _ => exact notCanceled_refused _

theorem runCommand_not_canceled (hblpop : c ≠ .blPop) (hwait : c ≠ .wait)
    (ctx : Context) (env : Env) (request : Request) (w : World) :
    NotCanceled (x.runCommand ctx env c request w).2 := by
  cases hc : storeHandler x.rt ctx.inline c with
  | some handler =>
    rw [(@runCommand_eq x ctx env c request handler hc w).2]
    exact (handler_not_canceled hc hblpop w.store request.args env).map _
  | none =>
    simp only [runCommand, hc]
    exact (x.runOther_not_canceled hwait ctx env request.args w).map _

/-- Neither BLPOP nor WAIT. -/
def Prompt (request : Request) : Prop :=
  request.name ≠ CommandName.blPop.text ∧ request.name ≠ CommandName.wait.text

theorem Prompt.ne (h : Prompt request) (hname : request.name = c.text) : c ≠ .blPop ∧ c ≠ .wait :=
  ⟨fun hc => h.1 (by rw [hname, hc]), fun hc => h.2 (by rw [hname, hc])⟩

theorem runRequest_not_canceled (h : Prompt request) (ctx : Context) (env : Env)
    (w : World) : NotCanceled (x.runRequest ctx env request w).2 := by
  unfold runRequest
  split
  · exact notCanceled_refused _
  · split
    · exact notCanceled_refused _
    · rename_i c hlookup
      obtain ⟨hblpop, hwait⟩ := h.ne (congrArg Request.name (x.lookup_ok hlookup).1)
      exact x.runCommand_not_canceled hblpop hwait ctx env request w

theorem execLoop_not_canceled (ctx : Context) (queue : List QueuedCommand)
    (hqueue : ∀ queued ∈ queue, Prompt queued.request) (envs : Nat → Env) (w : World)
    (acc : ExecuteResult) : NotCanceled (x.execLoop ctx envs queue w acc).2 := by
  induction queue generalizing envs w acc with
  | nil => exact fun h => by cases h
  | cons queued queue ih =>
    have hstep := x.runRequest_not_canceled (hqueue queued mem_cons_self) ctx (envs 0) w
    have hrest := fun q hq => hqueue q (mem_cons_of_mem _ hq)
    rw [execLoop]
    split
    · rename_i heq
      rw [heq] at hstep
      exact absurd rfl hstep
    · exact ih hrest _ _ _
    · split
      · exact ih hrest _ _ _
      · exact ih hrest _ _ _

/-- **Only BLPOP and WAIT end with the connection.** -/
theorem executeRequest_not_canceled (h : Prompt request) (hqueued : Queued Prompt w) (ctx : Context)
    (envs : Nat → Env) : NotCanceled (x.executeRequest ctx envs request w).2 := by
  refine x.executeRequest_rule notCanceled_refused (fun _ h => by cases h) ?_ ?_
  · intro c hlookup
    obtain ⟨hblpop, hwait⟩ := h.ne (congrArg Request.name (x.lookup_ok hlookup).1)
    exact x.runCommand_not_canceled hblpop hwait ctx _ request w
  · intro state hstate w'
    exact x.execLoop_not_canceled ctx _ (hqueued.clientState hstate) _ _ _

/-! ## Propagation -/

/-- Neither XADD, which is only logged, nor PUBLISH, which is only propagated. -/
def Mirrored (request : Request) : Prop :=
  request.name ≠ CommandName.xAdd.text ∧ request.name ≠ CommandName.publish.text

/-- What is propagated is what is logged. -/
def SameFrames (outcome : Except Failure ExecuteResult) : Prop :=
  ∀ result, outcome = .ok result → result.propagation = result.durability

theorem propagates_eq_durable (hxadd : c ≠ .xAdd) (hpublish : c ≠ .publish) :
    c.propagates = c.durable := by
  cases c with
  | xAdd => exact absurd rfl hxadd
  | publish => exact absurd rfl hpublish
  | _ => rfl

theorem runCommand_sameFrames (hxadd : c ≠ .xAdd) (hpublish : c ≠ .publish)
    (horigin : ctx.origin = false) (env : Env) (args : List Bytes) (w : World) :
    SameFrames (x.runCommand ctx env c ⟨c.text, args⟩ w).2 := by
  intro result hresult
  cases hc : storeHandler x.rt ctx.inline c with
  | some handler =>
    rw [(@runCommand_eq x ctx env c ⟨c.text, args⟩ handler hc w).2] at hresult
    obtain ⟨reply, -, rfl⟩ := map_ok hresult
    simp only [propagationFrames, durabilityFrames, horigin, propagates_eq_durable hxadd hpublish]
    rfl
  | none =>
    have hdurable : c.durable = false := by
      cases hd : c.durable with
      | false => rfl
      | true =>
        obtain ⟨handler, hhandler⟩ := storeHandler_of_durable x.rt ctx.inline hd
        rw [hc] at hhandler
        cases hhandler
    have hother := (x.runOther_store ctx env c args w).2
    simp only [runCommand, hc] at hresult
    obtain ⟨other, hrun, rfl⟩ := map_ok hresult
    rw [hrun] at hother
    simp only [propagationFrames, horigin, propagates_eq_durable hxadd hpublish, hdurable]
    exact hother.symm

theorem Mirrored.ne (h : Mirrored request)
    (hname : request.name = c.text) : c ≠ .xAdd ∧ c ≠ .publish :=
  ⟨fun hc => h.1 (by rw [hname, hc]), fun hc => h.2 (by rw [hname, hc])⟩

theorem runRequest_sameFrames (h : Mirrored request) (horigin : ctx.origin = false) (env : Env)
    (w : World) : SameFrames (x.runRequest ctx env request w).2 := by
  unfold runRequest
  split
  · exact fun _ h => by cases h
  · split
    · exact fun _ h => by cases h
    · rename_i c hlookup
      obtain ⟨hrequest, -⟩ := x.lookup_ok hlookup
      obtain ⟨hxadd, hpublish⟩ := h.ne (congrArg Request.name hrequest)
      rw [hrequest]
      exact x.runCommand_sameFrames hxadd hpublish horigin env request.args w

theorem execLoop_sameFrames (horigin : ctx.origin = false)
    (queue : List QueuedCommand) (hqueue : ∀ queued ∈ queue, Mirrored queued.request)
    (envs : Nat → Env) (w : World) {acc : ExecuteResult}
    (hacc : acc.propagation = acc.durability) : SameFrames (x.execLoop ctx envs queue w acc).2 := by
  induction queue generalizing envs w acc with
  | nil =>
    intro result hresult
    cases hresult
    exact hacc
  | cons queued queue ih =>
    have hstep := x.runRequest_sameFrames (hqueue queued mem_cons_self) horigin (envs 0) w
    have hrest := fun q hq => hqueue q (mem_cons_of_mem _ hq)
    rw [execLoop]
    split
    · exact fun _ h => by cases h
    · exact ih hrest _ _ hacc
    · rename_i result heq
      rw [heq] at hstep
      split
      · refine ih hrest _ _ ?_
        change acc.propagation ++ result.propagation = acc.durability ++ result.durability
        rw [hacc, hstep result rfl]
      · exact ih hrest _ _ hacc

/-- **A client's request propagates what it logs.** -/
theorem executeRequest_sameFrames (h : Mirrored request)
    (hqueued : Queued Mirrored w) (horigin : ctx.origin = false)
    (envs : Nat → Env) : SameFrames (x.executeRequest ctx envs request w).2 := by
  refine x.executeRequest_rule (fun _ _ h => by cases h) ?_ ?_ ?_
  · intro responses result hresult
    cases hresult
    rfl
  · intro c hlookup
    obtain ⟨hrequest, -⟩ := x.lookup_ok hlookup
    obtain ⟨hxadd, hpublish⟩ := h.ne (congrArg Request.name hrequest)
    rw [hrequest]
    exact x.runCommand_sameFrames hxadd hpublish horigin _ request.args w
  · intro state hstate w'
    exact x.execLoop_sameFrames horigin _ (hqueued.clientState hstate) _ _ rfl

end Executor

end Stash
