import Stash.Replay

/-!
# The store commands of a request

A request of a client runs no store command, when it fails early, is queued or is about the
connection; one, when it is run directly; or those of its queue, when it is an `EXEC`.  Its frames
are those of the commands it ran, unless the connection ended inside an `EXEC`
(`executeRequest_runs`).
-/

namespace Stash

open DecimalText GoMap Handlers List Executor World

/-- A store command with the surroundings it runs in. -/
structure StoreRun where
  env : Env
  command : CommandName
  args : List Bytes

namespace StoreRun

def request (r : StoreRun) : Request :=
  ⟨r.command.text, r.args⟩

/-- The command was accepted by its validator. -/
def Valid (x : Executor) (r : StoreRun) : Prop :=
  r.command.validate x.rt r.args (r.env.clock 0) = .ok ()

def handle (x : Executor) (inline : Bool) (r : StoreRun) (s : Store) : Handled :=
  match storeHandler x.rt inline r.command with
  | some handler => handler s r.args r.env
  | none => refused s outOfRange

/-- The durability frames of the command. -/
def frames (r : StoreRun) : Except Failure Reply → List Value
  | .ok reply => durabilityFrames r.command r.request reply
  | .error _ => []

/-- The commands take their surroundings from a sequence, in its order. -/
inductive Timed : (Nat → Env) → List StoreRun → Prop where
  | nil (envs : Nat → Env) : Timed envs []
  | skip {envs : Nat → Env} {runs : List StoreRun} (rest : Timed (fun i => envs (i + 1)) runs) :
    Timed envs runs
  | run {envs : Nat → Env} {r : StoreRun} {runs : List StoreRun} (first : r.env = envs 0)
    (rest : Timed (fun i => envs (i + 1)) runs) : Timed envs (r :: runs)

/-- Run store commands one after the other: the store they leave and the frames they log, each with
the surroundings of its command. -/
def performAll (x : Executor) (inline : Bool) : List StoreRun → Store → Store × List (Env × Value)
  | [], s => (s, [])
  | r :: rs, s =>
    let handled := r.handle x inline s
    let rest := performAll x inline rs handled.1
    (rest.1, (r.frames handled.2).map (fun frame => (r.env, frame)) ++ rest.2)

/-- What a store command other than BLPOP can come to. -/
inductive Outcome (x : Executor) (inline : Bool) (r : StoreRun) (s : Store) : Prop where
  /-- it changes nothing but keys past their deadline, and logs nothing -/
  | quiet (maxMemory : (r.handle x inline s).1.maxMemory = s.maxMemory)
    (fades : ∀ t, r.env.DoneBy t → Fades t s.view (r.handle x inline s).1.view)
    (frames : r.frames (r.handle x inline s).2 = [])
  /-- its mutation fails and nothing is logged -/
  | failed (key : Bytes) (m : Mutation) (err : StorageError)
    (effect : r.command.effect x.rt r.args (r.env.clock 1) = .write key m)
    (error : (s.mutate key m (r.env.after 2)).2 = .error err)
    (store : (r.handle x inline s).1 = (s.mutate key m (r.env.after 2)).1)
    (answer : (r.handle x inline s).2 = .error (.refused (storageCommandError err)))
  /-- its mutation succeeds and is logged -/
  | wrote (key : Bytes) (m : Mutation) (evicted : List Bytes)
    (effect : r.command.effect x.rt r.args (r.env.clock 1) = .write key m)
    (ok : (s.mutate key m (r.env.after 2)).2 = .ok evicted)
    (store : (r.handle x inline s).1 = (s.mutate key m (r.env.after 2)).1)
    (frames : r.frames (r.handle x inline s).2 =
      commandFrameOf r.command r.request m.deadline :: evictionFrames evicted)
  /-- it is a DEL -/
  | deleted (keys : List Bytes) (request : r.request = ⟨CommandName.del.text, keys⟩)
    (nonempty : keys ≠ [])
    (store : (r.handle x inline s).1 = (s.deleteMany keys (r.env.after 2)).1)
    (frames : r.frames (r.handle x inline s).2 = [deleteFrame keys])

/-- Only handlers of the store write. -/
theorem isSome_storeHandler {rt : Runtime} {c : CommandName} {args : List Bytes} {now : Instant}
    {key : Bytes} {m : Mutation} (h : c.effect rt args now = .write key m) (inline : Bool) :
    (storeHandler rt inline c).isSome := by
  cases c <;> first | rfl | cases h

/-- **A write that succeeds** is answered, and logs its command and after it one DEL of the keys it
evicted. -/
theorem storeHandler_wrote {rt : Runtime} {c : CommandName} {args : List Bytes} {env : Env}
    {s : Store} {key : Bytes} {m : Mutation} {evicted : List Bytes}
    (heffect : c.effect rt args (env.clock 1) = .write key m)
    (hok : (s.mutate key m (env.after 2)).2 = .ok evicted) (inline : Bool) :
    ∃ handler reply, storeHandler rt inline c = some handler ∧
      handler s args env = ((s.mutate key m (env.after 2)).1, .ok reply) ∧
      ∀ request, durabilityFrames c request reply =
        commandFrameOf c request m.deadline :: evictionFrames evicted := by
  obtain ⟨handler, hhandler⟩ := Option.isSome_iff_exists.mp (isSome_storeHandler heffect inline)
  have hdescribes := storeHandler_effect hhandler s args env
  have hdurable := effect_fits rt c args (env.clock 1)
  rw [heffect] at hdescribes hdurable
  change c.durable = true at hdurable
  obtain ⟨hstore, hanswer⟩ := hdescribes
  rw [hok] at hanswer
  obtain ⟨reply, hreply, hevicted, hdeadline⟩ := hanswer
  refine ⟨handler, reply, hhandler, Prod.ext hstore hreply, fun request => ?_⟩
  simp only [durabilityFrames, hdurable, hevicted, hdeadline]
  rfl

theorem handle_outcome (x : Executor) (inline : Bool) {r : StoreRun} (hblpop : r.command ≠ .blPop)
    (s : Store) : r.Outcome x inline s := by
  cases hhandler : storeHandler x.rt inline r.command with
  | none =>
    have hhandle : r.handle x inline s = refused s outOfRange := by simp only [handle, hhandler]
    refine .quiet ?_ (fun t _ => ?_) ?_
    · rw [hhandle]
      rfl
    · rw [hhandle]
      exact Fades.refl t _
    · rw [hhandle]
      rfl
  | some handler =>
    have hhandle : r.handle x inline s = handler s r.args r.env := by simp only [handle, hhandler]
    have heffect := storeHandler_effect hhandler s r.args r.env
    have hfits := effect_fits x.rt r.command r.args (r.env.clock 1)
    rw [← hhandle] at heffect
    cases hkind : r.command.effect x.rt r.args (r.env.clock 1) with
    | refuse =>
      rw [hkind] at heffect
      obtain ⟨hstore, err, herr⟩ := heffect
      refine .quiet (by rw [hstore]) (fun t _ => ?_) (by rw [herr]; rfl)
      rw [hstore]
      exact Fades.refl t _
    | read =>
      rw [hkind] at heffect hfits
      have hdurable : r.command.durable = false := hfits
      refine .quiet heffect.maxMemory heffect.fades ?_
      rcases heffect.reply with ⟨err, herr⟩ | ⟨response, hresponse⟩
      · rw [herr]
        rfl
      · rw [hresponse]
        simp only [frames, durabilityFrames, hdurable]
        rfl
    | take key =>
      -- only BLPOP takes
      rw [hkind] at hfits
      exact absurd hfits.1 hblpop
    | delete keys =>
      rw [hkind] at heffect hfits
      obtain ⟨hc, hargs, hne⟩ := hfits
      obtain ⟨hstore, reply, hreply, hevicted, -⟩ := heffect
      have hrequest : r.request = ⟨CommandName.del.text, keys⟩ := by rw [request, hc, hargs]
      refine .deleted keys hrequest hne hstore ?_
      rw [hreply]
      simp only [frames, durabilityFrames, hrequest, hevicted, hc]
      rfl
    | write key m =>
      rw [hkind] at heffect
      obtain ⟨hstore, hanswer⟩ := heffect
      cases hmutated : (s.mutate key m (r.env.after 2)).2 with
      | error err =>
        rw [hmutated] at hanswer
        exact .failed key m err hkind hmutated hstore hanswer
      | ok evicted =>
        obtain ⟨handler', reply, hhandler', hreply, hframes⟩ := storeHandler_wrote hkind hmutated inline
        refine .wrote key m evicted hkind hmutated hstore ?_
        rw [hhandler] at hhandler'
        cases hhandler'
        rw [hhandle, hreply]
        exact hframes r.request

end StoreRun

namespace Executor

variable (x : Executor)

/-- The durability frames of an outcome. -/
def durabilityOf : Except Failure ExecuteResult → List Value
  | .ok result => result.durability
  | .error _ => []

/-- An outcome is that of these store commands. -/
structure RunsTo (ctx : Context) (w : World) (outcome : World × Except Failure ExecuteResult)
    (runs : List StoreRun) : Prop where
  store : outcome.1.store = (StoreRun.performAll x ctx.inline runs w.store).1
  frames : outcome.2 ≠ .error .canceled →
    durabilityOf outcome.2 = (StoreRun.performAll x ctx.inline runs w.store).2.map Prod.snd

theorem runsTo_nil {ctx : Context} {w : World} {outcome : World × Except Failure ExecuteResult}
    (hstore : outcome.1.store = w.store) (hframes : durabilityOf outcome.2 = []) :
    x.RunsTo ctx w outcome [] :=
  ⟨hstore, fun _ => hframes⟩

/-! ## Commands that do not use the store -/

variable (ctx : Context) (env : Env) (c : CommandName) (args : List Bytes) (w : World)

theorem store_updateContext (ctx : Context) (f : ClientState → ClientState) :
    (w.updateContext ctx f).store = w.store := by
  unfold updateContext
  split <;> rfl

/-- What a command makes of the connection it came from. -/
inductive ConnectionChange : CommandName → ClientState → ClientState → Prop where
  | mode (c : CommandName) (state : ClientState) (authenticated monitoring replica : Bool)
      (subscribedChannels : List Bytes) :
      ConnectionChange c state { state with authenticated, monitoring, replica, subscribedChannels }
  | watch (state : ClientState) (keys : List Bytes) :
      ConnectionChange .watch state (state.watchKeys keys)
  | multi (state : ClientState) : ConnectionChange .multi state state.beginTransaction
  | discard (state : ClientState) :
      ConnectionChange .discard state state.resetTransaction.unwatchAll

/-- Nothing changes but the connection. -/
def ChangesConnection (c : CommandName) (ctx : Context) (w w' : World) : Prop :=
  w' = w ∨ ∃ state state', w.clientState ctx = some state ∧ ConnectionChange c state state' ∧
    w' = w.updateContext ctx fun _ => state'

theorem ChangesConnection.store {c : CommandName} {ctx : Context} {w w' : World}
    (h : ChangesConnection c ctx w w') : w'.store = w.store := by
  rcases h with rfl | ⟨_, _, -, -, rfl⟩
  · rfl
  · exact store_updateContext w ctx _

theorem changesConnection_onClient {c : CommandName}
    {handler : ClientState → Except CommandError (ClientState × List Value)}
    (h : ∀ state state' responses, handler state = .ok (state', responses) →
      ConnectionChange c state state') : ChangesConnection c ctx w (onClient ctx w handler).1 := by
  unfold onClient
  split
  · exact .inl rfl
  · rename_i state hstate
    split
    · exact .inl rfl
    · rename_i state' responses hhandler
      exact .inr ⟨state, state', hstate, h state state' responses hhandler, rfl⟩

theorem acknowledge_state {kind : String} {change : ClientState → Bytes → ClientState}
    (hchange : ∀ state channel, ∃ channels,
      change state channel = { state with subscribedChannels := channels })
    (state : ClientState) (channels : List Bytes) :
    ∃ channels', (acknowledge kind change state channels).1 =
      { state with subscribedChannels := channels' } := by
  induction channels generalizing state with
  | nil => exact ⟨state.subscribedChannels, rfl⟩
  | cons channel channels ih =>
    obtain ⟨first, hfirst⟩ := hchange state channel
    obtain ⟨rest, hrest⟩ := ih (change state channel)
    exact ⟨rest, hrest.trans (by rw [hfirst])⟩

theorem subscribeChannel_state (state : ClientState) (channel : Bytes) : ∃ channels,
    state.subscribeChannel channel = { state with subscribedChannels := channels } := by
  unfold ClientState.subscribeChannel
  split
  · exact ⟨state.subscribedChannels, rfl⟩
  · exact ⟨_, rfl⟩

/-- SUBSCRIBE is refused inside a transaction and changes nothing but the channels. -/
theorem handleSubscribe_state {state state' : ClientState} {args : List Bytes}
    {responses : List Value} (h : handleSubscribe state args = .ok (state', responses)) :
    state.inTransaction = false ∧
      ∃ channels, state' = { state with subscribedChannels := channels } := by
  unfold handleSubscribe at h
  split at h
  · cases h
  · rename_i houtside
    obtain ⟨channels, heq⟩ := @acknowledge_state "subscribe" _ subscribeChannel_state state args
    rw [Except.ok.inj h] at heq
    exact ⟨by simpa using houtside, channels, heq⟩

/-- UNSUBSCRIBE is refused inside a transaction and changes nothing but the channels. -/
theorem handleUnsubscribe_state {state state' : ClientState} {args : List Bytes}
    {responses : List Value} (h : handleUnsubscribe state args = .ok (state', responses)) :
    state.inTransaction = false ∧
      ∃ channels, state' = { state with subscribedChannels := channels } := by
  unfold handleUnsubscribe at h
  simp only at h
  generalize (if args = [] then sortBy id state.subscribedChannels else args) = channels at h
  split at h
  · cases h
  · rename_i houtside
    refine ⟨by simpa using houtside, ?_⟩
    split at h
    · cases h
      exact ⟨state.subscribedChannels, rfl⟩
    · obtain ⟨channels', heq⟩ := @acknowledge_state "unsubscribe"
        ClientState.unsubscribeChannel (fun state channel => ⟨_, rfl⟩) state channels
      rw [Except.ok.inj h] at heq
      exact ⟨channels', heq⟩

/-- **Commands that do not use the store change their connection and nothing else.** -/
theorem runOther_changes : ChangesConnection c ctx w (x.runOther ctx env c args w).1 := by
  cases c with
  | subscribe =>
    refine changesConnection_onClient ctx w fun state state' responses h => ?_
    obtain ⟨-, channels, rfl⟩ := handleSubscribe_state h
    exact .mode _ state _ _ _ _
  | unsubscribe =>
    refine changesConnection_onClient ctx w fun state state' responses h => ?_
    obtain ⟨-, channels, rfl⟩ := handleUnsubscribe_state h
    exact .mode _ state _ _ _ _
  | watch =>
    refine changesConnection_onClient ctx w fun state state' responses h => ?_
    unfold handleWatch at h
    split at h <;> cases h
    exact .watch state args
  | multi =>
    refine changesConnection_onClient ctx w fun state state' responses h => ?_
    unfold handleMulti at h
    split at h
    · cases h
    · split at h <;> cases h
      exact .multi state
  | discard =>
    refine changesConnection_onClient ctx w fun state state' responses h => ?_
    unfold handleDiscard at h
    split at h <;> cases h
    exact .discard state
  | monitor =>
    refine changesConnection_onClient ctx w fun state state' responses h => ?_
    unfold handleMonitor at h
    split at h
    · cases h
    · split at h
      · cases h
      · split at h <;> cases h
        exact .mode _ state _ _ _ _
  | auth =>
    unfold runOther
    simp only
    split
    · exact .inl rfl
    · refine changesConnection_onClient ctx w fun state state' responses h => ?_
      unfold handleAuth at h
      split at h <;> cases h
      exact .mode _ state _ _ _ _
  | pSync =>
    unfold runOther handlePSync
    simp only
    split
    · exact .inl rfl
    · cases hclient : ctx.client with
      | none =>
        refine .inl ?_
        rw [updateContext, hclient]
      | some id =>
        refine .inr ⟨w.clients id, { w.clients id with replica := true }, ?_, ?_, ?_⟩
        · rw [clientState, hclient]
          rfl
        · exact .mode _ (w.clients id) _ _ _ _
        · rw [updateContext, updateContext, hclient]
          rfl
  | _ => exact .inl rfl

theorem onClient_durability
    (handler : ClientState → Except CommandError (ClientState × List Value)) :
    durabilityOf (onClient ctx w handler).2 = [] := by
  unfold onClient
  split
  · rfl
  · split <;> rfl

theorem durabilityOf_mapError (result : Except CommandError ExecuteResult)
    (h : ∀ r, result = .ok r → r.durability = []) :
    durabilityOf (result.mapError Failure.refused) = [] := by
  cases result with
  | error err => rfl
  | ok r => exact h r rfl

theorem runOther_durability : durabilityOf (x.runOther ctx env c args w).2 = [] := by
  cases c with
  | subscribe | unsubscribe | watch | multi | discard | monitor => exact onClient_durability ctx w _
  | auth =>
    unfold runOther
    simp only
    split
    · rfl
    · exact onClient_durability ctx w _
  | ping =>
    refine durabilityOf_mapError _ fun r h => ?_
    unfold handlePing at h
    split at h <;> cases h <;> rfl
  | echo =>
    refine durabilityOf_mapError _ fun r h => ?_
    unfold handleEcho at h
    split at h <;> cases h
    rfl
  | replConf =>
    refine durabilityOf_mapError _ fun r h => ?_
    unfold handleReplConf at h
    simp only at h
    split at h
    · split at h
      · cases h
        rfl
      · split at h
        · split at h <;> cases h
          rfl
        · split at h <;> cases h
          rfl
    · cases h
  | pSync =>
    unfold runOther handlePSync
    simp only
    split <;> rfl
  | wait =>
    unfold runOther
    cases x.waitForReplicas env ctx.inline args <;> rfl
  | bgRewriteAOF =>
    unfold runOther
    cases x.aofRewrite env <;> rfl
  | info =>
    refine durabilityOf_mapError _ fun r h => ?_
    unfold handleInfo at h
    simp only at h
    split at h <;> cases h
    rfl
  | _ => rfl

/-- **Commands that do not use the store leave it alone** and log nothing. -/
theorem runOther_store :
    (x.runOther ctx env c args w).1.store = w.store ∧
      durabilityOf (x.runOther ctx env c args w).2 = [] :=
  ⟨(x.runOther_changes ctx env c args w).store, x.runOther_durability ctx env c args w⟩

/-- The store command of a request that is run, if it uses the store. -/
theorem runCommand_runs :
    ∃ runs, x.RunsTo ctx w (x.runCommand ctx env c ⟨c.text, args⟩ w) runs ∧
      (runs = [] ∨ runs = [⟨env, c, args⟩] ∧ ∀ failure,
        (StoreRun.handle x ctx.inline ⟨env, c, args⟩ w.store).2 = .error failure →
          (x.runCommand ctx env c ⟨c.text, args⟩ w).2 = .error failure) ∧
      ∀ result, (x.runCommand ctx env c ⟨c.text, args⟩ w).2 = .ok result →
        result.responses.length ≠ 1 → result.durability = [] := by
  cases hc : storeHandler x.rt ctx.inline c with
  | none =>
    obtain ⟨hstore, hframes⟩ := x.runOther_store ctx env c args w
    have hrun : x.runCommand ctx env c ⟨c.text, args⟩ w =
        ((x.runOther ctx env c args w).1, (x.runOther ctx env c args w).2.map fun r =>
          { r with propagation := propagationFrames ctx c ⟨c.text, args⟩ (.plain .null) }) := by
      simp only [runCommand, hc]
    have hdurability : durabilityOf (x.runCommand ctx env c ⟨c.text, args⟩ w).2 = [] := by
      rw [hrun]
      cases hother : (x.runOther ctx env c args w).2 with
      | error failure => rfl
      | ok result =>
        rw [hother] at hframes
        exact hframes
    refine ⟨[], x.runsTo_nil (by rw [hrun]; exact hstore) hdurability, .inl rfl, ?_⟩
    intro result hresult _
    rw [hresult] at hdurability
    exact hdurability
  | some handler =>
    obtain ⟨hstore, houtcome⟩ :=
      @runCommand_eq x ctx env c ⟨c.text, args⟩ handler hc w
    have hhandle : StoreRun.handle x ctx.inline ⟨env, c, args⟩ w.store =
        handler w.store args env := by
      simp only [StoreRun.handle, hc]
    refine ⟨[⟨env, c, args⟩], ⟨?_, fun _ => ?_⟩, .inr ⟨rfl, fun failure hfailure => ?_⟩,
      fun result hresult hlength => ?_⟩
    · rw [hstore, StoreRun.performAll, hhandle]
      rfl
    · rw [houtcome, StoreRun.performAll, hhandle]
      cases (handler w.store args env).2 with
      | error failure => rfl
      | ok reply =>
        simp only [StoreRun.performAll, StoreRun.frames, append_nil, map_map]
        change _ = List.map id _
        rw [map_id]
        rfl
    · rw [hhandle] at hfailure
      rw [houtcome, hfailure]
      rfl
    · rw [houtcome] at hresult
      obtain ⟨reply, -, rfl⟩ := map_ok hresult
      exact absurd rfl hlength

theorem lookup_ok {request : Request} {now : Instant} {c : CommandName}
    (h : x.lookup request now = .ok c) :
    request = ⟨c.text, request.args⟩ ∧ c.validate x.rt request.args now = .ok () := by
  unfold lookup at h
  split at h
  · cases h
  · rename_i c' hname
    obtain ⟨_, hvalid, rfl⟩ := map_ok h
    rw [← CommandName.text_of_ofText hname]
    exact ⟨rfl, hvalid⟩

/-- Where a store command of a request comes from. -/
def Accepted (request : Request) (r : StoreRun) : Prop :=
  r.request = request ∧ r.Valid x

variable (envs : Nat → Env) (request : Request) (w : World)

theorem runRequest_runs :
    ∃ runs, x.RunsTo ctx w (x.runRequest ctx env request w) runs ∧
      (runs = [] ∨ ∃ r, runs = [r] ∧ r.env = env ∧ x.Accepted request r) ∧
      ∀ result, (x.runRequest ctx env request w).2 = .ok result →
        result.responses.length ≠ 1 → result.durability = [] := by
  have hnothing : ∀ failure, x.RunsTo ctx w (w, .error failure) [] :=
    fun failure => x.runsTo_nil rfl rfl
  unfold runRequest
  split
  · exact ⟨[], hnothing _, .inl rfl, fun _ h => by cases h⟩
  · split
    · exact ⟨[], hnothing _, .inl rfl, fun _ h => by cases h⟩
    · rename_i c hlookup
      obtain ⟨hrequest, hvalid⟩ := x.lookup_ok hlookup
      obtain ⟨runs, hruns, hshape, hresponses⟩ := x.runCommand_runs ctx env c request.args w
      rw [← hrequest] at hruns hresponses
      refine ⟨runs, hruns, hshape.imp id fun h => ?_, hresponses⟩
      exact ⟨_, h.1, rfl, hrequest.symm, hvalid⟩

theorem performAll_append (inline : Bool) (runs runs' : List StoreRun) (s : Store) :
    StoreRun.performAll x inline (runs ++ runs') s =
      ((StoreRun.performAll x inline runs' (StoreRun.performAll x inline runs s).1).1,
        (StoreRun.performAll x inline runs s).2 ++
          (StoreRun.performAll x inline runs' (StoreRun.performAll x inline runs s).1).2) := by
  induction runs generalizing s with
  | nil => rfl
  | cons r runs ih =>
    simp only [cons_append, StoreRun.performAll, ih, append_assoc]

/-- **The loop of `EXEC`** runs the store commands of its queue; unless the connection ends, its
frames are theirs. -/
theorem execLoop_runs (queue : List QueuedCommand) (envs : Nat → Env) (w : World)
    (acc : ExecuteResult) :
    ∃ runs, StoreRun.Timed envs runs ∧
      (∀ r ∈ runs, ∃ queued ∈ queue, x.Accepted queued.request r) ∧
      (x.execLoop ctx envs queue w acc).1.store =
        (StoreRun.performAll x ctx.inline runs w.store).1 ∧
      ((x.execLoop ctx envs queue w acc).2 = .error .canceled ∨
        ∃ result, (x.execLoop ctx envs queue w acc).2 = .ok result ∧
          result.durability = acc.durability ++
            (StoreRun.performAll x ctx.inline runs w.store).2.map Prod.snd) := by
  induction queue generalizing envs w acc with
  | nil =>
    refine ⟨[], .nil envs, fun _ h => (nomatch h), rfl, .inr ⟨_, rfl, ?_⟩⟩
    exact (append_nil _).symm
  | cons queued queue ih =>
    obtain ⟨runs, hruns, hshape, hresponses⟩ := x.runRequest_runs ctx (envs 0) queued.request w
    -- the rest of the loop, after this command logged its frames
    have hrest : ∀ (w' : World) (acc' : ExecuteResult),
        w'.store = (StoreRun.performAll x ctx.inline runs w.store).1 →
        acc'.durability = acc.durability ++
          (StoreRun.performAll x ctx.inline runs w.store).2.map Prod.snd →
        ∃ all, StoreRun.Timed envs all ∧
          (∀ r ∈ all, ∃ q ∈ queued :: queue, x.Accepted q.request r) ∧
          (x.execLoop ctx (fun i => envs (i + 1)) queue w' acc').1.store =
            (StoreRun.performAll x ctx.inline all w.store).1 ∧
          ((x.execLoop ctx (fun i => envs (i + 1)) queue w' acc').2 = .error .canceled ∨
            ∃ result, (x.execLoop ctx (fun i => envs (i + 1)) queue w' acc').2 = .ok result ∧
              result.durability = acc.durability ++
                (StoreRun.performAll x ctx.inline all w.store).2.map Prod.snd) := by
      intro w' acc' hstore hframes
      obtain ⟨later, htimed, hfrom, hfinal, hresult⟩ := ih (fun i => envs (i + 1)) w' acc'
      refine ⟨runs ++ later, ?_, fun r hr => ?_, ?_, ?_⟩
      · rcases hshape with rfl | ⟨r, rfl, henv, -⟩
        · exact .skip htimed
        · exact .run henv htimed
      · rcases mem_append.mp hr with hr | hr
        · rcases hshape with rfl | ⟨r', rfl, -, haccepted⟩
          · cases hr
          · obtain rfl := mem_singleton.mp hr
            exact ⟨queued, mem_cons_self, haccepted⟩
        · obtain ⟨q, hq, haccepted⟩ := hfrom r hr
          exact ⟨q, mem_cons_of_mem _ hq, haccepted⟩
      · rw [hfinal, performAll_append, hstore]
      · refine hresult.imp id fun ⟨result, hok, hdurability⟩ => ⟨result, hok, ?_⟩
        rw [hdurability, hframes, performAll_append, hstore, map_append, append_assoc]
    have hstore := hruns.store
    have hframes := hruns.frames
    rw [execLoop]
    split
    · -- the connection ended: the store keeps what was done so far
      rename_i w' heq
      rw [heq] at hstore
      refine ⟨runs, ?_, fun r hr => ?_, hstore, .inl rfl⟩
      · rcases hshape with rfl | ⟨r, rfl, henv, -⟩
        · exact .nil envs
        · exact .run henv (.nil _)
      · rcases hshape with rfl | ⟨r', rfl, -, haccepted⟩
        · cases hr
        · obtain rfl := mem_singleton.mp hr
          exact ⟨queued, mem_cons_self, haccepted⟩
    · rename_i w' err heq
      rw [heq] at hstore hframes
      refine hrest w' _ hstore ?_
      rw [← hframes (by simp)]
      exact (append_nil _).symm
    · rename_i w' result heq
      rw [heq] at hstore hframes hresponses
      split
      · refine hrest w' _ hstore ?_
        rw [← hframes (by simp)]
        rfl
      · rename_i hone
        refine hrest w' _ hstore ?_
        have hnone := hresponses result rfl (fun hlength => by
          obtain ⟨response, hresponse⟩ := length_eq_one_iff.mp hlength
          exact hone response hresponse)
        rw [← hframes (by simp)]
        change acc.durability = acc.durability ++ result.durability
        rw [hnone, append_nil]

/-- At most the command of the request itself is run, and its error is that of the request. -/
def Directly (ctx : Context) (env : Env) (request : Request) (w : World)
    (outcome : Except Failure ExecuteResult) (runs : List StoreRun) : Prop :=
  runs = [] ∨ ∃ r, runs = [r] ∧ r.env = env ∧ x.Accepted request r ∧
    ∀ failure, (r.handle x ctx.inline w.store).2 = .error failure → outcome = .error failure

/-- Commands of the client's queue are run. -/
def FromQueue (ctx : Context) (envs : Nat → Env) (w : World) (runs : List StoreRun) : Prop :=
  StoreRun.Timed envs runs ∧ ∀ r ∈ runs, ∃ state, w.clientState ctx = some state ∧
    ∃ queued ∈ state.txQueue, x.Accepted queued.request r

theorem handleExec_runs :
    ∃ runs, x.RunsTo ctx w (x.handleExec ctx envs w) runs ∧ x.FromQueue ctx envs w runs := by
  have hnothing : x.FromQueue ctx envs w [] := ⟨.nil envs, fun _ h => (nomatch h)⟩
  unfold handleExec
  split
  · exact ⟨[], x.runsTo_nil rfl rfl, hnothing⟩
  · rename_i state hstate
    split
    · split
      · exact ⟨[], x.runsTo_nil (store_updateContext w ctx _) rfl, hnothing⟩
      · split
        · exact ⟨[], x.runsTo_nil (store_updateContext w ctx _) rfl, hnothing⟩
        · obtain ⟨runs, htimed, hfrom, hstore, hresult⟩ := x.execLoop_runs ctx state.txQueue envs
            (w.updateContext ctx fun state => state.unwatchAll.drainTransaction) (.ofResponses [])
          rw [store_updateContext] at hstore hresult
          refine ⟨runs, ⟨hstore, fun hnot => ?_⟩, htimed, fun r hr => ⟨state, hstate, hfrom r hr⟩⟩
          rcases hresult with hcanceled | ⟨result, hok, hdurability⟩
          · exact absurd hcanceled hnot
          · rw [hok]
            exact hdurability
    · exact ⟨[], x.runsTo_nil rfl rfl, hnothing⟩

/-- A request of a transaction is refused, which marks the transaction, or queued. -/
@[elab_as_elim]
theorem maybeQueue_rule {Q : World × Except Failure ExecuteResult → Prop} {ctx : Context}
    {request : Request} {now : Instant} {w : World} {answer : World × Except Failure ExecuteResult}
    (h : x.maybeQueueRequest ctx request now w = some answer)
    (hrefused : ∀ err, x.lookup request now = .error err →
      Q (w.updateContext ctx fun state => { state with txDirty := true }, .error (.refused err)))
    (hqueued : ∀ h, Q (w.updateContext ctx fun state =>
        { state with txQueue := state.txQueue ++ [⟨request, h⟩] },
      .ok (.ofResponses [.simpleString (ascii "QUEUED")]))) : Q answer := by
  unfold maybeQueueRequest at h
  split at h
  · cases h
  · split_ifs at h
    split at h
    · rename_i err hlookup
      cases h
      exact hrefused err hlookup
    · cases h
      exact hqueued _

/-- **The store commands of a request**: its own, or those of its queue. -/
theorem executeRequest_runs :
    ∃ runs, x.RunsTo ctx w (x.executeRequest ctx envs request w) runs ∧
      (x.Directly ctx (envs 0) request w (x.executeRequest ctx envs request w).2 runs ∨
        request.name = CommandName.exec.text ∧ x.FromQueue ctx (fun i => envs (i + 1)) w runs) := by
  unfold executeRequest
  split
  · exact ⟨[], x.runsTo_nil rfl rfl, .inl (.inl rfl)⟩
  · split
    · rename_i answer hanswer
      exact ⟨[], x.maybeQueue_rule hanswer
        (fun _ _ => x.runsTo_nil (store_updateContext w ctx _) rfl)
        fun _ => x.runsTo_nil (store_updateContext w ctx _) rfl, .inl (.inl rfl)⟩
    · split
      · exact ⟨[], x.runsTo_nil rfl rfl, .inl (.inl rfl)⟩
      · rename_i hlookup
        obtain ⟨hrequest, -⟩ := x.lookup_ok hlookup
        obtain ⟨runs, hruns, hfrom⟩ := x.handleExec_runs ctx (fun i => envs (i + 1)) w
        exact ⟨runs, hruns, .inr ⟨congrArg Request.name hrequest, hfrom⟩⟩
      · rename_i c _ hlookup
        obtain ⟨hrequest, hvalid⟩ := x.lookup_ok hlookup
        obtain ⟨runs, hruns, hshape, -⟩ := x.runCommand_runs ctx (envs 0) c request.args w
        rw [← hrequest] at hruns hshape
        refine ⟨runs, hruns, .inl (hshape.imp id fun h => ?_)⟩
        exact ⟨_, h.1, rfl, ⟨hrequest.symm, hvalid⟩, h.2⟩

end Executor

end Stash
