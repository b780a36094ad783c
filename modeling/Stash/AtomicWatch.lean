import Stash.WatchRuns

/-!
# Watched keys on the event loop

On the event loop a command is run as a whole before the next one is looked at, its calls of `Touch`
included.  A run is then a sequence of requests of any connections, a link to a master among them,
and of connections that go away.

The history of a connection is what it could know without asking the registry: the keys it named in a
`WATCH` that no `EXEC`, `DISCARD` or disconnect has taken back, and those of them that a successful
store command changed afterwards, a command of a queue or an eviction included.  The registry keeps
up with that history, except for the empty key, which `WATCH` accepts and `WatchRegistry.Watch`
skips.
-/

namespace Stash

open DecimalText GoMap Handlers List Executor StoreRun Machine World

namespace Executor

variable (x : Executor)

/-! ## The store commands a request runs -/

/-- The command that is run for a request, if it is neither refused nor queued. -/
def admitted (ctx : Context) (envs : Nat → Env) (request : Request) (w : World) :
    Option CommandName :=
  match x.validateContext ctx request w with
  | .error _ => none
  | .ok () =>
    match x.maybeQueueRequest ctx request ((envs 0).clock 0) w with
    | some _ => none
    | none => (x.lookup request ((envs 0).clock 0)).toOption

/-- The store command of a command, with the store it is run on. -/
def ranCommand (ctx : Context) (env : Env) (c : CommandName) (args : List Bytes) (w : World) :
    List (StoreRun × Store) :=
  match storeHandler x.rt ctx.inline c with
  | some _ => [(⟨env, c, args⟩, w.store)]
  | none => []

def ranRequest (ctx : Context) (env : Env) (request : Request) (w : World) :
    List (StoreRun × Store) :=
  match x.validateContext ctx request w with
  | .error _ => []
  | .ok () =>
    match x.lookup request (env.clock 0) with
    | .error _ => []
    | .ok c => x.ranCommand ctx env c request.args w

/-- The store commands of a queue; a done context ends it. -/
def ranQueue (ctx : Context) : (Nat → Env) → List QueuedCommand → World → List (StoreRun × Store)
  | _, [], _ => []
  | envs, queued :: rest, w =>
    x.ranRequest ctx (envs 0) queued.request w ++
      match x.runRequest ctx (envs 0) queued.request w with
      | (_, .error .canceled) => []
      | (w', _) => ranQueue ctx (fun i => envs (i + 1)) rest w'

def ranExec (ctx : Context) (envs : Nat → Env) (w : World) : List (StoreRun × Store) :=
  match w.clientState ctx with
  | none => []
  | some state =>
    if state.inTransaction && !state.txDirty && !state.txFailed then
      x.ranQueue ctx envs state.txQueue
        (w.updateContext ctx fun state => state.unwatchAll.drainTransaction)
    else []

/-- The store commands of a request, in their order, each with the store it is run on. -/
def ran (ctx : Context) (envs : Nat → Env) (request : Request) (w : World) :
    List (StoreRun × Store) :=
  match x.admitted ctx envs request w with
  | none => []
  | some .exec => x.ranExec ctx (fun i => envs (i + 1)) w
  | some c => x.ranCommand ctx (envs 0) c request.args w

end Executor

/-! ## The machine -/

/-- The server between two commands, with the history of its connections. -/
structure Serving where
  world : World
  /-- the keys named in a `WATCH` that is still in force -/
  named : Nat → List Bytes
  /-- those of them that were changed since -/
  changed : Nat → Bytes → Prop

namespace Serving

/-- A server with the given store and new connections. -/
def started (store : Store) : Serving :=
  ⟨⟨store, fun _ => .fresh⟩, fun _ => [], fun _ _ => False⟩

inductive Event where
  /-- a whole command -/
  | request (ctx : Context) (envs : Nat → Env) (request : Request)
  /-- the connection is closed; its number may be given to a new one -/
  | disconnect (client : Nat)

/-- The request is a `WATCH` of the client that is carried out. -/
def Watches (x : Executor) (s : Serving) (ctx : Context) (envs : Nat → Env) (request : Request)
    (client : Nat) : Prop :=
  ctx.client = some client ∧ x.admitted ctx envs request s.world = some .watch ∧
    (s.world.clients client).inTransaction = false

/-- The request is an `EXEC` or `DISCARD` that ends the transaction of the client. -/
def Ends (x : Executor) (s : Serving) (ctx : Context) (envs : Nat → Env) (request : Request)
    (client : Nat) : Prop :=
  ctx.client = some client ∧ (s.world.clients client).inTransaction = true ∧
    (x.admitted ctx envs request s.world = some .exec ∨
      x.admitted ctx envs request s.world = some .discard)

instance (x : Executor) (s : Serving) (ctx : Context) (envs : Nat → Env) (request : Request)
    (client : Nat) : Decidable (s.Watches x ctx envs request client) :=
  inferInstanceAs (Decidable (_ ∧ _ ∧ _))

instance (x : Executor) (s : Serving) (ctx : Context) (envs : Nat → Env) (request : Request)
    (client : Nat) : Decidable (s.Ends x ctx envs request client) :=
  inferInstanceAs (Decidable (_ ∧ _ ∧ (_ ∨ _)))

/-- A whole command, and what the histories learn from it. -/
def serve (x : Executor) (s : Serving) (ctx : Context) (envs : Nat → Env) (request : Request) :
    Serving where
  world := (x.executeRequest ctx envs request s.world).1
  named client :=
    if s.Ends x ctx envs request client then []
    else if s.Watches x ctx envs request client then s.named client ++ request.args
    else s.named client
  changed client key :=
    ¬s.Ends x ctx envs request client ∧
      (s.changed client key ∨ key ∈ s.named client ∧
        ∃ ran ∈ x.ran ctx envs request s.world, ran.1.Changes x ctx.inline ran.2 key)

/-- `UnwatchAll` at the end of a connection, whose state is given up. -/
def disconnect (s : Serving) (client : Nat) : Serving where
  world := s.world.updateClient client fun _ => .fresh
  named id := if id = client then [] else s.named id
  changed id key := id ≠ client ∧ s.changed id key

def step (x : Executor) (s : Serving) : Event → Option Serving
  | .request ctx envs request => some (s.serve x ctx envs request)
  | .disconnect client => some (s.disconnect client)

/-! ## Marks -/

/-- The commands leave the watches alone, and mark the transactions that watch a key they altered. -/
structure Marks (x : Executor) (inline : Bool) (w w' : World) (ran : List (StoreRun × Store)) :
    Prop where
  watched : ∀ id, (w'.clients id).watchedKeys = (w.clients id).watchedKeys
  kept : ∀ id, (w.clients id).txFailed = true → (w'.clients id).txFailed = true
  marked : ∀ id, ∀ key ∈ (w.clients id).watchedKeys, ∀ p ∈ ran, p.1.Changes x inline p.2 key →
    (w'.clients id).txFailed = true

variable {x : Executor} {inline : Bool} {w w' w'' : World} {ran ran' : List (StoreRun × Store)}

theorem Marks.of_sameWatch
    (h : ∀ id, Watching.SameWatch (w.clients id) (w'.clients id)) : Marks x inline w w' [] where
  watched id := (h id).1
  kept id hfailed := (h id).2.trans hfailed
  marked _ _ _ _ hp := absurd hp not_mem_nil

theorem Marks.refl (w : World) : Marks x inline w w [] :=
  .of_sameWatch fun _ => .refl _

theorem Marks.trans (h : Marks x inline w w' ran) (h' : Marks x inline w' w'' ran') :
    Marks x inline w w'' (ran ++ ran') where
  watched id := (h'.watched id).trans (h.watched id)
  kept id hfailed := h'.kept id (h.kept id hfailed)
  marked id key hkey p hp halters := by
    rcases mem_append.mp hp with hp | hp
    · exact h'.kept id (h.marked id key hkey p hp halters)
    · rw [← h.watched id] at hkey
      exact h'.marked id key hkey p hp halters

theorem clients_touchWatchKeys (w : World) (keys : List Bytes) (id : Nat) :
    ((w.touchWatchKeys keys).clients id).watchedKeys = (w.clients id).watchedKeys ∧
      (((w.touchWatchKeys keys).clients id).txFailed = true ↔ (w.clients id).txFailed = true ∨
        ∃ key ∈ (w.clients id).watchedKeys, key ∈ keys) := by
  simp only [touchWatchKeys]
  by_cases hany : ((w.clients id).watchedKeys.any fun key => keys.contains key) = true
  · rw [if_pos hany]
    simp only [any_eq_true, contains_iff_mem] at hany
    exact ⟨rfl, fun _ => .inr hany, fun _ => rfl⟩
  · rw [if_neg hany]
    simp only [any_eq_true, contains_iff_mem] at hany
    exact ⟨rfl, .inl, fun h => h.resolve_right hany⟩

variable (x : Executor) (ctx : Context)

/-- **A command marks the watchers of what it alters**; a command of the connection alters nothing. -/
theorem marks_runCommand (env : Env) {c : CommandName}
    (hwatch : c ≠ .watch) (hdiscard : c ≠ .discard) (request : Request) (w : World) :
    Marks x ctx.inline w (x.runCommand ctx env c request w).1
      (x.ranCommand ctx env c request.args w) := by
  cases hhandler : storeHandler x.rt ctx.inline c with
  | none =>
    have hran : x.ranCommand ctx env c request.args w = [] := by
      simp only [ranCommand, hhandler]
    have hrun : (x.runCommand ctx env c request w).1 = (x.runOther ctx env c request.args w).1 := by
      simp only [runCommand, hhandler]
    rw [hran, hrun]
    exact .of_sameWatch (Watching.sameWatch_runOther x hwatch hdiscard ctx env request.args w)
  | some handler =>
    have hran : x.ranCommand ctx env c request.args w = [(⟨env, c, request.args⟩, w.store)] := by
      simp only [ranCommand, hhandler]
    have hhandle : handle x ctx.inline ⟨env, c, request.args⟩ w.store =
        handler w.store request.args env := by
      simp only [handle, hhandler]
    rw [hran]
    unfold runCommand
    simp only [hhandler]
    cases hhandled : handler w.store request.args env with
    | mk s outcome =>
      rw [hhandled] at hhandle
      cases outcome with
      | error failure =>
        -- a command that fails alters nothing, by definition
        refine ⟨fun _ => rfl, fun _ hfailed => hfailed, fun id key _ p hp halters => ?_⟩
        obtain ⟨reply, hreply⟩ := halters.1
        rw [mem_singleton.mp hp, hhandle] at hreply
        cases hreply
      | ok reply =>
        have htouch := clients_touchWatchKeys { w with store := s } (reply.touched ++ reply.evicted)
        refine ⟨fun id => (htouch id).1, fun id hfailed => (htouch id).2.mpr (.inl hfailed),
          fun id key hkey p hp halters => (htouch id).2.mpr (.inr ⟨key, hkey, ?_⟩)⟩
        obtain ⟨-, t, ht, hdiffers⟩ := halters
        rw [mem_singleton.mp hp] at ht hdiffers
        have hreply : (handle x ctx.inline ⟨env, c, request.args⟩ w.store).2 = .ok reply := by
          rw [hhandle]
        exact mem_append.mpr (Watching.mem_touched_or_evicted hreply ht hdiffers)

theorem marks_runRequest (env : Env) (queued : QueuedCommand) (w : World) :
    Marks x ctx.inline w (x.runRequest ctx env queued.request w).1
      (x.ranRequest ctx env queued.request w) := by
  unfold runRequest ranRequest
  cases x.validateContext ctx queued.request w with
  | error err => exact .refl w
  | ok u =>
    simp only
    cases hlookup : x.lookup queued.request (env.clock 0) with
    | error err => exact .refl w
    | ok c =>
      have hplain := Watching.lookup_plain hlookup
      refine marks_runCommand x ctx env ?_ ?_ queued.request w
      · rintro rfl
        cases hplain
      · rintro rfl
        cases hplain

/-- **The commands of a queue.** -/
theorem marks_execLoop (queue : List QueuedCommand)
    (envs : Nat → Env) (w : World) (acc : ExecuteResult) :
    Marks x ctx.inline w (x.execLoop ctx envs queue w acc).1 (x.ranQueue ctx envs queue w) := by
  induction queue generalizing envs w acc with
  | nil => exact .refl w
  | cons queued rest ih =>
    have hfirst := marks_runRequest x ctx (envs 0) queued w
    unfold execLoop ranQueue
    generalize x.runRequest ctx (envs 0) queued.request w = outcome at hfirst ⊢
    obtain ⟨w', result⟩ := outcome
    cases result with
    | error failure =>
      cases failure with
      | canceled => exact hfirst.trans (.refl _)
      | refused err => exact hfirst.trans (ih _ _ _)
    | ok result =>
      simp only
      split
      · exact hfirst.trans (ih _ _ _)
      · exact hfirst.trans (ih _ _ _)

/-! ## The invariant -/

/-- The registry knows what a connection watches, and the changes it has to be told of. -/
structure KeptUp (s : Serving) : Prop where
  watched : ∀ client, ∀ key ∈ s.named client, key ≠ [] →
    key ∈ (s.world.clients client).watchedKeys
  within : ∀ client key, s.changed client key → key ∈ s.named client
  marked : ∀ client key, s.changed client key → key ≠ [] →
    (s.world.clients client).txFailed = true

theorem keptUp_started (store : Store) : KeptUp (started store) where
  watched _ _ h := absurd h not_mem_nil
  within _ _ h := h.elim
  marked _ _ h := h.elim

/-- What a request does to a connection whose history goes on: its watches and its mark are kept, and
it is marked for what the request altered. -/
structure Carried (x : Executor) (inline : Bool) (before after : ClientState)
    (ran : List (StoreRun × Store)) : Prop where
  watched : ∀ key ∈ before.watchedKeys, key ∈ after.watchedKeys
  kept : before.txFailed = true → after.txFailed = true
  marked : ∀ key ∈ before.watchedKeys, ∀ p ∈ ran, p.1.Changes x inline p.2 key →
    after.txFailed = true

theorem Marks.carried {x : Executor} {inline : Bool} {w w' : World} {ran : List (StoreRun × Store)}
    (h : Marks x inline w w' ran) (id : Nat) : Carried x inline (w.clients id) (w'.clients id) ran where
  watched key hkey := by
    rw [h.watched id]
    exact hkey
  kept := h.kept id
  marked := h.marked id

/-- **A request keeps the registry up with the histories**, if it carries those that go on and
registers what it names. -/
theorem KeptUp.serve {x : Executor} {s : Serving} (h : KeptUp s) {ctx : Context}
    {envs : Nat → Env} {request : Request}
    (hcarried : ∀ client, ¬s.Ends x ctx envs request client →
      Carried x ctx.inline (s.world.clients client)
        ((x.executeRequest ctx envs request s.world).1.clients client)
        (x.ran ctx envs request s.world))
    (hwatches : ∀ client, s.Watches x ctx envs request client → ∀ key ∈ request.args, key ≠ [] →
      key ∈ ((x.executeRequest ctx envs request s.world).1.clients client).watchedKeys) :
    KeptUp (s.serve x ctx envs request) := by
  refine ⟨fun client key hkey hnonempty => ?_, fun client key hchanged => ?_,
    fun client key hchanged hnonempty => ?_⟩
  · simp only [Serving.serve] at hkey
    by_cases hends : s.Ends x ctx envs request client
    · rw [if_pos hends] at hkey
      cases hkey
    · rw [if_neg hends] at hkey
      have hkept : key ∈ s.named client → _ := fun hnamed =>
        (hcarried client hends).watched key (h.watched client key hnamed hnonempty)
      by_cases hwatch : s.Watches x ctx envs request client
      · rw [if_pos hwatch] at hkey
        exact (mem_append.mp hkey).elim hkept fun hkey =>
          hwatches client hwatch key hkey hnonempty
      · rw [if_neg hwatch] at hkey
        exact hkept hkey
  · obtain ⟨hends, hchanged⟩ := hchanged
    have hnamed : key ∈ s.named client := hchanged.elim (h.within client key) And.left
    simp only [Serving.serve]
    rw [if_neg hends]
    split
    · exact mem_append_left _ hnamed
    · exact hnamed
  · obtain ⟨hends, hchanged⟩ := hchanged
    rcases hchanged with hchanged | ⟨hkey, p, hp, halters⟩
    · exact (hcarried client hends).kept (h.marked client key hchanged hnonempty)
    · exact (hcarried client hends).marked key (h.watched client key hkey hnonempty) p hp halters

/-! ## The commands -/

/-- What is run for a request is what `executeRequestDetailed` runs. -/
theorem executeRequest_admitted (envs : Nat → Env) (request : Request) (w : World) :
    (x.admitted ctx envs request w = none ∧
      ∀ id, Watching.SameWatch (w.clients id) ((x.executeRequest ctx envs request w).1.clients id)) ∨
    (x.admitted ctx envs request w = some .exec ∧
      x.executeRequest ctx envs request w = x.handleExec ctx (fun i => envs (i + 1)) w) ∨
    ∃ c, c ≠ .exec ∧ x.admitted ctx envs request w = some c ∧
      x.executeRequest ctx envs request w = x.runCommand ctx (envs 0) c request w := by
  unfold admitted executeRequest
  cases x.validateContext ctx request w with
  | error err => exact .inl ⟨rfl, fun _ => .refl _⟩
  | ok u =>
    simp only
    cases hqueue : x.maybeQueueRequest ctx request ((envs 0).clock 0) w with
    | some answer => exact .inl ⟨rfl, Watching.sameWatch_maybeQueue x hqueue⟩
    | none =>
      simp only
      cases x.lookup request ((envs 0).clock 0) with
      | error err => exact .inl ⟨rfl, fun _ => .refl _⟩
      | ok c =>
        by_cases hexec : c = .exec
        · subst hexec
          exact .inr (.inl ⟨rfl, rfl⟩)
        · refine .inr (.inr ⟨c, hexec, rfl, ?_⟩)
          cases c with
          | exec => exact absurd rfl hexec
          | _ => rfl

theorem clients_updateContext {w : World} {ctx : Context} {f : ClientState → ClientState} {id : Nat}
    (hid : ctx.client ≠ some id) : (w.updateContext ctx f).clients id = w.clients id := by
  unfold updateContext
  cases hclient : ctx.client with
  | none => rfl
  | some client =>
    refine Function.update_of_ne ?_ _ _
    rintro rfl
    exact hid hclient

/-- **`EXEC`** takes back the watches of its own connection before it runs the queue, and carries the
others through it. -/
theorem carried_handleExec (envs : Nat → Env) (w : World) {id : Nat}
    (hid : ctx.client = some id → (w.clients id).inTransaction = false) :
    Carried x ctx.inline (w.clients id) ((x.handleExec ctx envs w).1.clients id)
      (x.ranExec ctx envs w) := by
  have hsame := (@Marks.refl x ctx.inline w).carried id
  unfold handleExec ranExec
  cases hstate : w.clientState ctx with
  | none => exact hsame
  | some state =>
    simp only
    cases htransaction : state.inTransaction with
    | false => exact hsame
    | true =>
      -- the transaction is that of another connection
      have hother : ctx.client ≠ some id := by
        intro hclient
        rw [clientState, hclient] at hstate
        obtain rfl : w.clients id = state := Option.some.inj hstate
        rw [hid hclient] at htransaction
        cases htransaction
      cases hdirty : state.txDirty with
      | true =>
        simp only [Bool.not_true, Bool.and_false, Bool.false_and, Bool.false_eq_true, if_false, if_true]
        rw [clients_updateContext hother]
        exact hsame
      | false =>
        cases hfailed : state.txFailed with
        | true =>
          simp only [Bool.not_true, Bool.and_false, Bool.false_eq_true, if_false, if_true]
          rw [clients_updateContext hother]
          exact hsame
        | false =>
          have hloop := (marks_execLoop x ctx state.txQueue envs
            (w.updateContext ctx fun state => state.unwatchAll.drainTransaction)
            (.ofResponses [])).carried id
          rw [clients_updateContext hother] at hloop
          exact hloop

/-- **`WATCH` and `DISCARD`** change their own connection only. -/
theorem runCommand_onClient {x : Executor} {ctx : Context} {env : Env} {c : CommandName}
    {request : Request} {w : World}
    {handler : ClientState → Except CommandError (ClientState × List Value)}
    (hstore : storeHandler x.rt ctx.inline c = none)
    (hother : x.runOther ctx env c request.args w = onClient ctx w handler) (id : Nat) :
    (x.runCommand ctx env c request w).1.clients id = w.clients id ∨
      ctx.client = some id ∧ ∃ responses,
        handler (w.clients id) = .ok ((x.runCommand ctx env c request w).1.clients id, responses) := by
  have hrun : (x.runCommand ctx env c request w).1 = (onClient ctx w handler).1 := by
    simp only [runCommand, hstore, hother]
  rw [hrun]
  by_cases hid : ctx.client = some id
  · have hstate : w.clientState ctx = some (w.clients id) := by
      rw [clientState, hid]
      rfl
    simp only [onClient, hstate]
    cases hhandler : handler (w.clients id) with
    | error err => exact .inl rfl
    | ok answer =>
      refine .inr ⟨hid, answer.2, ?_⟩
      simp only [updateContext, hid, Watching.clients_updateClient, if_pos]
  · refine .inl ?_
    unfold onClient
    split
    · rfl
    · split
      · rfl
      · exact clients_updateContext hid

/-- **One command keeps the registry up with the histories.** -/
theorem KeptUp.request {x : Executor} {s : Serving} (h : KeptUp s) (ctx : Context)
    (envs : Nat → Env) (request : Request) : KeptUp (s.serve x ctx envs request) := by
  rcases executeRequest_admitted x ctx envs request s.world with
    ⟨hnone, hsame⟩ | ⟨hexec, hrun⟩ | ⟨c, hexec, hc, hrun⟩
  · have hran : x.ran ctx envs request s.world = [] := by simp only [ran, hnone]
    refine h.serve (fun client _ => ?_) fun client hwatches => ?_
    · rw [hran]
      exact (Marks.of_sameWatch hsame).carried client
    · rw [hwatches.2.1] at hnone
      cases hnone
  · have hran : x.ran ctx envs request s.world = x.ranExec ctx (fun i => envs (i + 1)) s.world := by
      simp only [ran, hexec]
    refine h.serve (fun client hends => ?_) fun client hwatches => ?_
    · rw [hran, hrun]
      refine carried_handleExec x ctx _ s.world fun hclient => ?_
      by_contra htransaction
      exact hends ⟨hclient, Bool.eq_true_of_not_eq_false htransaction, .inl hexec⟩
    · rw [hwatches.2.1] at hexec
      cases hexec
  · have hran : x.ran ctx envs request s.world =
        x.ranCommand ctx (envs 0) c request.args s.world := by
      simp only [ran, hc]
    by_cases hwatch : c = .watch
    · subst hwatch
      have hown := @runCommand_onClient x ctx (envs 0) .watch request s.world
        (fun state => handleWatch state request.args) rfl rfl
      refine h.serve (fun client _ => ?_) fun client hwatches key hkey hnonempty => ?_
      · rw [hran, hrun]
        rcases hown client with heq | ⟨-, responses, hhandler⟩
        · rw [heq]
          exact (Marks.refl s.world).carried client
        · unfold handleWatch at hhandler
          split at hhandler
          · cases hhandler
          · rw [← (Prod.mk.inj (Except.ok.inj hhandler)).1]
            exact ⟨fun _ => mem_append_left _, fun hfailed => hfailed,
              fun _ _ _ hp => absurd hp not_mem_nil⟩
      · rw [hrun]
        obtain ⟨hclient, -, htransaction⟩ := hwatches
        have hstate : s.world.clientState ctx = some (s.world.clients client) := by
          rw [clientState, hclient]
          rfl
        have hwatched : (x.runCommand ctx (envs 0) .watch request s.world).1.clients client =
            (s.world.clients client).watchKeys request.args := by
          change (onClient ctx s.world fun state =>
            handleWatch state request.args).1.clients client = _
          simp only [onClient, hstate, handleWatch, htransaction,
            Bool.false_eq_true, if_false, updateContext, hclient,
            Watching.clients_updateClient, if_pos]
        rw [hwatched]
        exact mem_append_right _ (mem_filter.mpr ⟨hkey, decide_eq_true hnonempty⟩)
    · have hnot : ∀ client, ¬s.Watches x ctx envs request client := by
        intro client hwatches
        exact hwatch (Option.some.inj (hc.symm.trans hwatches.2.1))
      refine h.serve (fun client hends => ?_) fun client hwatches => absurd hwatches (hnot client)
      rw [hran, hrun]
      by_cases hdiscard : c = .discard
      · subst hdiscard
        rcases @runCommand_onClient x ctx (envs 0) .discard request s.world
          handleDiscard rfl rfl client with heq | ⟨hclient, responses, hhandler⟩
        · rw [heq]
          exact (Marks.refl s.world).carried client
        · unfold handleDiscard at hhandler
          split at hhandler
          · rename_i htransaction
            exact absurd ⟨hclient, htransaction, .inr hc⟩ hends
          · cases hhandler
      · exact (marks_runCommand x ctx (envs 0) hwatch hdiscard request s.world).carried client

theorem KeptUp.disconnect {s : Serving} (h : KeptUp s) (client : Nat) :
    KeptUp (s.disconnect client) where
  watched id key hkey hnonempty := by
    simp only [Serving.disconnect, Watching.clients_updateClient] at hkey ⊢
    by_cases hid : id = client
    · rw [if_pos hid] at hkey
      cases hkey
    · rw [if_neg hid] at hkey ⊢
      exact h.watched id key hkey hnonempty
  within id key hchanged := by
    simp only [Serving.disconnect]
    rw [if_neg hchanged.1]
    exact h.within id key hchanged.2
  marked id key hchanged hnonempty := by
    simp only [Serving.disconnect, Watching.clients_updateClient]
    rw [if_neg hchanged.1]
    exact h.marked id key hchanged.2 hnonempty

theorem KeptUp.step {x : Executor} {s s' : Serving} {event : Event} (h : KeptUp s)
    (hstep : s.step x event = some s') : KeptUp s' := by
  cases event with
  | request ctx envs request =>
    cases hstep
    exact h.request ctx envs request
  | disconnect client =>
    cases hstep
    exact h.disconnect client

/-- The client's next request is an `EXEC` of a transaction whose commands were all accepted. -/
structure ExecAccepted (x : Executor) (s : Serving) (client : Nat) (ctx : Context)
    (envs : Nat → Env) (request : Request) : Prop where
  sender : ctx.client = some client
  exec : x.admitted ctx envs request s.world = some .exec
  inTransaction : (s.world.clients client).inTransaction = true
  clean : (s.world.clients client).txDirty = false

/-- **`WATCH` misses no change**: after any sequence of whole commands of any connections, if a
successful command changed what is live under a key that a client has named in a `WATCH` still in
force, and the key is not empty, the next accepted `EXEC` of the client runs no command and answers
with a null array. -/
theorem watch_misses_no_change (x : Executor) (store : Store) (events : List Event) {s : Serving}
    (hrun : run (step x) events (started store) = some s) {client : Nat} {key : Bytes}
    (hchanged : s.changed client key) (hkey : key ≠ []) {ctx : Context} {envs : Nat → Env}
    {request : Request} (haccepted : s.ExecAccepted x client ctx envs request) :
    (x.executeRequest ctx envs request s.world).2 = .ok (.ofResponses [.array [] true]) ∧
      x.ran ctx envs request s.world = [] ∧
      (x.executeRequest ctx envs request s.world).1.store = s.world.store := by
  have hkept : KeptUp s :=
    invariant_run (fun hs hstep => KeptUp.step hs hstep) (keptUp_started store) hrun
  have hfailed := hkept.marked client key hchanged hkey
  obtain ⟨hclient, hexec, htransaction, hclean⟩ := haccepted
  have hstate : s.world.clientState ctx = some (s.world.clients client) := by
    rw [clientState, hclient]
    rfl
  have hhandle : x.executeRequest ctx envs request s.world =
      (s.world.updateContext ctx fun state => state.resetTransaction.unwatchAll,
        .ok (.ofResponses [.array [] true])) := by
    rcases executeRequest_admitted x ctx envs request s.world with
      ⟨hnone, -⟩ | ⟨-, heq⟩ | ⟨c, hne, hc, -⟩
    · rw [hnone] at hexec
      cases hexec
    · rw [heq]
      simp only [handleExec, hstate, htransaction, hclean, hfailed, if_true,
        Bool.false_eq_true, if_false]
    · exact absurd (Option.some.inj (hc.symm.trans hexec)) hne
  refine ⟨by rw [hhandle], ?_, ?_⟩
  · simp only [ran, hexec, ranExec, hstate, htransaction, hclean, hfailed,
      Bool.not_true, Bool.and_false, Bool.false_eq_true, if_false]
  · rw [hhandle]
    exact store_updateContext s.world ctx _

/-- A request on the event loop in the first second. -/
def say (client : Nat) (name : String) (args : List String) : Event :=
  .request ⟨some client, false, true⟩ (fun _ => .frozen firstSecond) ⟨ascii name, args.map ascii⟩

/-- Client 1 writes a key that client 0 watches. -/
def overwritten (key : String) : List Event :=
  [say 0 "WATCH" [key], say 1 "SET" [key, "v"], say 0 "MULTI" [], say 0 "SET" ["a", "b"]]

/-- The state client 0 sends its `EXEC` in. -/
def afterwards (key : String) : Serving :=
  (run (step .quiet) (overwritten key) (started (.newStore fun _ => 0))).getD
    (started (.newStore fun _ => 0))

theorem changed_overwritten {key : String} (hkey : key = "k" ∨ key = "") :
    (afterwards key).changed 0 (ascii key) := by
  have hnow : firstSecond.millis ≤ 1000 := by decide
  have hset : (⟨.frozen firstSecond, .set, [ascii key, ascii "v"]⟩ : StoreRun).Changes .quiet true
      (.newStore fun _ => 0) (ascii key) := by
    rcases hkey with rfl | rfl <;>
    · refine ⟨⟨_, rfl⟩, 1000, fun _ => hnow, fun hsame => ?_⟩
      cases congrArg Option.isSome hsame
  refine ⟨?_, .inl ⟨?_, .inl ⟨?_, .inr ⟨mem_cons_self, _, mem_cons_self, hset⟩⟩⟩⟩
  · rcases hkey with rfl | rfl <;>
    · rintro ⟨-, -, h | h⟩ <;> cases h
  · rcases hkey with rfl | rfl <;>
    · rintro ⟨-, h, -⟩
      cases h
  · rcases hkey with rfl | rfl <;>
    · rintro ⟨-, h, -⟩
      cases h

theorem watch_misses_no_change_overwritten :
    let s := afterwards "k"
    (run (step .quiet) (overwritten "k") (started (.newStore fun _ => 0)) = some s ∧
      s.changed 0 (ascii "k") ∧ ascii "k" ≠ [] ∧
      s.ExecAccepted .quiet 0 ⟨some 0, false, true⟩ (fun _ => .frozen firstSecond)
        ⟨ascii "EXEC", []⟩) ∧
      (quiet.executeRequest ⟨some 0, false, true⟩ (fun _ => .frozen firstSecond)
        ⟨ascii "EXEC", []⟩ s.world).2 = .ok (.ofResponses [.array [] true]) := by
  have hrun : run (step .quiet) (overwritten "k") (started (.newStore fun _ => 0)) =
      some (afterwards "k") := rfl
  have hchanged : (afterwards "k").changed 0 (ascii "k") := changed_overwritten (.inl rfl)
  have haccepted : (afterwards "k").ExecAccepted .quiet 0 ⟨some 0, false, true⟩
      (fun _ => .frozen firstSecond) ⟨ascii "EXEC", []⟩ := ⟨rfl, rfl, rfl, rfl⟩
  exact ⟨⟨hrun, hchanged, by decide, haccepted⟩,
    (watch_misses_no_change .quiet _ _ hrun hchanged (by decide) haccepted).1⟩

/-- **The empty key is not watched**: client 0 named it, client 1 wrote it, and the queue of client 0
is run. -/
theorem empty_key_missed :
    let s := afterwards ""
    run (step .quiet) (overwritten "") (started (.newStore fun _ => 0)) = some s ∧
      s.changed 0 [] ∧
      s.ExecAccepted .quiet 0 ⟨some 0, false, true⟩ (fun _ => .frozen firstSecond)
        ⟨ascii "EXEC", []⟩ ∧
      (quiet.executeRequest ⟨some 0, false, true⟩ (fun _ => .frozen firstSecond)
        ⟨ascii "EXEC", []⟩ s.world).2 ≠ .ok (.ofResponses [.array [] true]) ∧
      quiet.ran ⟨some 0, false, true⟩ (fun _ => .frozen firstSecond)
        ⟨ascii "EXEC", []⟩ s.world ≠ [] := by
  refine ⟨rfl, changed_overwritten (.inr rfl), ⟨rfl, rfl, rfl, rfl⟩, ?_, ?_⟩
  · intro h
    cases h
  · intro h
    cases h

end Serving

end Stash
