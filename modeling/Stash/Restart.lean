import Stash.AofRecovery
import Stash.ExpiryReplay
import Stash.RdbLoader
import Stash.WireLimits

/-!
# Starting again

`initializePersistence` takes the state from one of two sources: from the append-only file if that
is not empty, otherwise from the RDB file.  What a first process then logs goes behind the initial
content of the append-only file, and a second process is started from the same RDB file and the
resulting log.

A log that was not empty stays the source, and the second start reproduces the first process.  A log
that was empty becomes the source with the first command that is logged, and then nothing that was
loaded from the RDB file is read again (`restart_restores_iff`).
-/

namespace Stash

open DecimalText GoMap Handlers List Function Executor Value

/-! ## What is read back means the same -/

theorem bytes_norm (value : Value) : value.norm.bytes = value.bytes := by
  cases value with
  | bulkString data isNull | textBulkString data isNull | array data isNull => cases isNull <;> rfl
  | _ => rfl

theorem decodeArgs_normAll (values : List Value) :
    decodeArgs (normAll values) = decodeArgs values := by
  induction values with
  | nil => rfl
  | cons value values ih => simp only [normAll, decodeArgs, bytes_norm, ih]

theorem decodeRequest_norm (rt : Runtime) (value : Value) :
    decodeRequest rt value.norm = decodeRequest rt value := by
  cases value with
  | array elements isNull =>
    cases isNull with
    | true => cases elements <;> rfl
    | false =>
      cases elements with
      | nil => rfl
      | cons first rest =>
        simp only [Value.norm, Bool.false_eq_true, if_false, normAll, decodeRequest,
          bytes_norm, decodeArgs_normAll]
  | bulkString data isNull | textBulkString data isNull => cases isNull <;> rfl
  | _ => rfl

theorem Executor.execute_norm (x : Executor) (ctx : Context) (envs : Nat → Env) (value : Value)
    (w : World) : x.executeDetailed ctx envs value.norm w = x.executeDetailed ctx envs value w := by
  rw [executeDetailed, executeDetailed, decodeRequest_norm]

/-! ## Files of complete frames -/

/-- The file is a sequence of complete frames, and these are the values they are read as. -/
inductive ReadsAs : Bytes → List Value → Prop where
  | nil : ReadsAs [] []
  | cons {input rest : Bytes} {value : Value} {values : List Value}
    (first : parse input = .ok (value, rest)) (others : ReadsAs rest values) :
    ReadsAs input (value :: values)

theorem ReadsAs.append {first second : Bytes} {values values' : List Value}
    (h : ReadsAs first values) (h' : ReadsAs second values') :
    ReadsAs (first ++ second) (values ++ values') := by
  induction h with
  | nil => exact h'
  | cons hparse _ ih => exact .cons ((extends_parseValue _).ok hparse second) ih

theorem readsAs_encodeValues {frames : List Value} (h : ∀ frame ∈ frames, ReadsBack frame) :
    ReadsAs (encodeValues frames) (frames.map Value.norm) := by
  induction frames with
  | nil => exact .nil
  | cons frame frames ih =>
    exact .cons (h frame mem_cons_self _)
      (ih fun frame' hframe' => h frame' (mem_cons_of_mem _ hframe'))

namespace Executor

variable (x : Executor)

/-- The callback of `initializePersistence`; every command has its own readings of the clock. -/
def replayValue (envs : Nat → Env) (state : Nat × World) (value : Value) :
    (Nat × World) × Option Failure :=
  match x.executeDetailed .replay (fun _ => envs state.1) value state.2 with
  | (w, .ok _) => ((state.1 + 1, w), none)
  | (w, .error failure) => ((state.1 + 1, w), some failure)

/-- The values with the surroundings they are replayed in, from the `n`-th on. -/
def replayedAt (envs : Nat → Env) : Nat → List Value → List (Env × Value)
  | _, [] => []
  | n, value :: values => (envs n, value) :: replayedAt envs (n + 1) values

theorem replayedAt_append (envs : Nat → Env) (n : Nat) (values values' : List Value) :
    replayedAt envs n (values ++ values') =
      replayedAt envs n values ++ replayedAt envs (n + values.length) values' := by
  induction values generalizing n with
  | nil => rfl
  | cons value values ih =>
    rw [cons_append, replayedAt, replayedAt, ih, length_cons, cons_append,
      Nat.add_right_comm, Nat.add_assoc]

theorem replayedAt_snd (envs : Nat → Env) (n : Nat) (values : List Value) :
    (replayedAt envs n values).map Prod.snd = values := by
  induction values generalizing n with
  | nil => rfl
  | cons value values ih => rw [replayedAt, map_cons, ih]

variable {x}

theorem replay_norm (envs : Nat → Env) (n : Nat) (frames : List Value) (w : World) :
    x.replay (replayedAt envs n (frames.map Value.norm)) w =
      x.replay (replayedAt envs n frames) w := by
  induction frames generalizing n w with
  | nil => rfl
  | cons frame frames ih =>
    rw [map_cons, replayedAt, replayedAt, replay, replay, execute_norm]
    split
    · exact ih _ _
    · rfl

theorem replay_plain {logged : List (Env × Value)} {w w' : World} (h : x.replay logged w = some w')
    (hplain : w.store.maxMemoryEnabled = false) : w'.store.maxMemoryEnabled = false := by
  have hlimit := x.maxMemory_executeAll logged w
  rw [x.executeAll_of_replay h] at hlimit
  exact (Store.enabled_of_eq hlimit).trans hplain

/-- A load of complete frames replays them. -/
theorem loadLoop_readsAs {envs : Nat → Env} {input : Bytes} {values : List Value}
    (h : ReadsAs input values) {n : Nat} {w w' : World}
    (hreplay : x.replay (replayedAt envs n values) w = some w') (stats : LoadStats) :
    ∃ stats', loadLoop (x.replayValue envs) stats (n, w) input =
      ⟨(n + values.length, w'), stats', none⟩ := by
  induction h generalizing n w stats with
  | nil =>
    cases hreplay
    refine ⟨stats, ?_⟩
    rw [loadLoop_of_error _ (parseValue_nil _), if_pos (by decide)]
    rfl
  | @cons input rest value values hparse _ ih =>
    rw [replayedAt, replay] at hreplay
    split at hreplay
    · rename_i w₁ result hexecute
      have hvalue : x.replayValue envs (n, w) value = ((n + 1, w₁), none) := by
        rw [replayValue, hexecute]
      obtain ⟨stats', hrest⟩ :=
        ih hreplay { stats with replayedCommands := stats.replayedCommands + 1 }
      refine ⟨stats', ?_⟩
      rw [loadLoop_of_ok _ hparse, hvalue, length_cons, Nat.add_comm values.length,
        ← Nat.add_assoc]
      exact hrest
    · cases hreplay

end Executor

/-! ## The log of a session can be read back -/

/-- A replayable request within the limits of the parser. -/
structure Admitted (rt : Runtime) (request : Request) : Prop where
  replayable : Replayable rt request
  fits : FitCommand request.args

/-- The frames of a store command are within the limits if its arguments are. -/
theorem StoreRun.readsBack {x : Executor} {r : StoreRun} (hr : Admitted x.rt r.request)
    (inline : Bool) {s : Store} (hplain : s.maxMemoryEnabled = false) :
    ∀ frame ∈ r.frames (r.handle x inline s).2, ReadsBack frame := by
  have hblpop : r.command ≠ .blPop := fun hc => hr.replayable.prompt.1 (by rw [request, hc])
  cases r.handle_outcome x inline hblpop s with
  | quiet _ _ frames => simp [frames]
  | failed _ _ _ _ _ _ answer => simp [answer, StoreRun.frames]
  | wrote key m evicted effect ok _ frames =>
    obtain ⟨hdeadline, -, -⟩ := hr.replayable.write effect
    obtain ⟨-, -, rfl, -⟩ := (mutate_acts hplain key m (r.env.after 2)).entry ok
    have hargs : loggedArgs r.command r.args m.deadline = r.args := by
      rw [hdeadline]
      unfold loggedArgs
      split <;> simp
    intro frame hframe
    rw [frames, evictionFrames] at hframe
    obtain rfl := mem_singleton.mp hframe
    rw [request, Emission.readsBack_commandFrameOf, hargs]
    exact hr.fits
  | deleted keys request _ _ frames =>
    intro frame hframe
    rw [frames] at hframe
    obtain rfl := mem_singleton.mp hframe
    have hfits := hr.fits
    rw [request] at hfits
    exact (readsBack_command .del keys).mpr hfits

theorem StoreRun.performAll_readsBack {x : Executor} {runs : List StoreRun}
    (hruns : ∀ r ∈ runs, r.Valid x ∧ Admitted x.rt r.request) (inline : Bool) {s : Store}
    (hplain : s.maxMemoryEnabled = false) (hdead : NoDeadlines s.view) :
    ∀ frame ∈ (performAll x inline runs s).2.map Prod.snd, ReadsBack frame := by
  induction runs generalizing s with
  | nil => exact fun _ h => absurd h not_mem_nil
  | cons r runs ih =>
    obtain ⟨hvalid, hadmitted⟩ := hruns r mem_cons_self
    obtain ⟨hfirst, hplain'⟩ := explains hvalid hadmitted.replayable inline hplain hdead
    have hrest := ih (fun r hr => hruns r (mem_cons_of_mem _ hr)) hplain'
      (hfirst.noDeadlines hdead)
    intro frame hframe
    simp only [performAll, map_append, map_map, mem_append] at hframe
    rcases hframe with hframe | hframe
    · obtain ⟨frame', hframe', rfl⟩ := mem_map.mp hframe
      exact readsBack hadmitted inline hplain frame' hframe'
    · exact hrest frame hframe

namespace Executor

variable (x : Executor)

/-- **The frames of a request within the limits are within them too.** -/
theorem execute_readsBack {value : Value}
    (hvalue : ∀ request, decodeRequest x.rt value = .ok request → Admitted x.rt request) {w : World}
    (hw : x.Steady w) (hqueued : Queued (Admitted x.rt) w) (ctx : Context) (envs : Nat → Env) :
    ∀ frame ∈ durabilityOf (x.executeDetailed ctx envs value w).2, ReadsBack frame := by
  unfold executeDetailed
  split
  · exact fun _ h => absurd h not_mem_nil
  · rename_i request hdecode
    have hrequest := hvalue request hdecode
    have hprompt := x.executeRequest_not_canceled hrequest.replayable.prompt
      (fun id queued h => (hw.queued id queued h).prompt) ctx envs
    obtain ⟨runs, hruns, haccepted⟩ := x.executeRequest_accepted hrequest hqueued ctx envs
    rw [hruns.frames hprompt]
    exact StoreRun.performAll_readsBack haccepted ctx.inline hw.plain hw.dead

/-- The requests of a session. -/
def Admits (sent : List Submission) : Prop :=
  ∀ s ∈ sent, ∀ request, decodeRequest x.rt s.value = .ok request → Admitted x.rt request

theorem session_readsBack {sent : List Submission} (hsent : x.Admits sent) {w : World}
    (hw : x.Steady w) (hqueued : Queued (Admitted x.rt) w) :
    ∀ frame ∈ (x.session sent w).2.flatMap durabilityOf, ReadsBack frame := by
  induction sent generalizing w with
  | nil => exact fun _ h => absurd h not_mem_nil
  | cons s sent ih =>
    have hvalue := hsent s mem_cons_self
    have hfirst := x.execute_readsBack hvalue hw hqueued s.ctx s.envs
    have hw' := (x.execute_explains (fun request h => (hvalue request h).replayable) hw
      s.ctx s.envs).2
    have hrest := ih (fun s hs => hsent s (mem_cons_of_mem _ hs)) hw'
      (hqueued.executeDetailed x s.ctx s.envs hvalue)
    intro frame hframe
    simp only [session, flatMap_cons, mem_append] at hframe
    rcases hframe with hframe | hframe
    · exact hfirst frame hframe
    · exact hrest frame hframe

/-! ## Starting -/

/-- How a server is started: the policy of its log, the seed of its shards, and the readings of the
clock during the load. -/
structure Startup where
  policy : Policy
  hash : Bytes → Fin 256
  envs : Nat → Env

inductive StartError where
  | aof (err : LoadError Failure)
  | rdb (err : Rdb.RdbError)

/-- `initializePersistence` with both paths configured: the store, and the writer of the log. -/
def initializePersistence (start : Startup) (rdb aof : Bytes) :
    Except StartError (Store × AofWriter) :=
  if aof = [] then
    match Rdb.loadReader start.envs rdb (.newStore start.hash) with
    | .error err => .error (.rdb err)
    | .ok loaded => .ok (loaded.store, AofWriter.openWriter start.policy aof)
  else
    match Stash.initializePersistence (x.replayValue start.envs)
        (0, ⟨.newStore start.hash, fun _ => .fresh⟩) start.policy aof with
    | .error err => .error (.aof err)
    | .ok ((_, w), writer) => .ok (w.store, writer)

/-- The durability frames of a session are appended. -/
def appendOutcomes : AofWriter → List (Except Failure ExecuteResult) → Except WriterError AofWriter
  | writer, [] => .ok writer
  | writer, outcome :: outcomes =>
    match writer.appendFrames (durabilityOf outcome) with
    | .error err => .error err
    | .ok writer' => appendOutcomes writer' outcomes

/-- A process that serves a session and is closed, and the next one that is started from the same
RDB file and the log it left: the second one holds the keyspace of the first. -/
def Restores (y : Executor) (start start' : Startup) (rdb aof : Bytes) (sent : List Submission) :
    Prop :=
  ∃ s writer writer' s' reopened,
    x.initializePersistence start rdb aof = .ok (s, writer) ∧
    appendOutcomes writer (x.session sent ⟨s, fun _ => .fresh⟩).2 = .ok writer' ∧
    y.initializePersistence start' rdb writer'.close.file = .ok (s', reopened) ∧
    s'.view = (x.session sent ⟨s, fun _ => .fresh⟩).1.store.view

/-- The RDB file holds these keys, none of which expires before it is loaded. -/
def RdbHolds (start : Startup) (rdb : Bytes) (ks : Keyspace) : Prop :=
  ∃ loaded, Rdb.loadReader start.envs rdb (.newStore start.hash) = .ok loaded ∧
    loaded.store.view = ks

/-- The log consists of complete frames, and loading it gives this keyspace. -/
def AofHolds (start : Startup) (aof : Bytes) (ks : Keyspace) : Prop :=
  ∃ values w, ReadsAs aof values ∧
    x.replay (replayedAt start.envs 0 values) ⟨.newStore start.hash, fun _ => .fresh⟩ = some w ∧
    w.store.view = ks

variable {x}

theorem appendOutcomes_spec (outcomes : List (Except Failure ExecuteResult)) {writer : AofWriter}
    (hclosed : writer.closed = false) :
    ∃ writer', appendOutcomes writer outcomes = .ok writer' ∧ writer'.closed = false ∧
      writer'.contents = writer.contents ++ encodeValues (outcomes.flatMap durabilityOf) := by
  induction outcomes generalizing writer with
  | nil => exact ⟨writer, rfl, hclosed, (append_nil _).symm⟩
  | cons outcome outcomes ih =>
    obtain ⟨writer₁, hfirst⟩ := writer.append_ok (encodeValues (durabilityOf outcome))
      (writer.policy = .always) hclosed
    obtain ⟨hcontents, -, -, -, hclosed₁, -⟩ := AofWriter.append_spec hfirst
    obtain ⟨writer', hrest, hclosed', hcontents'⟩ := ih (hclosed₁.trans hclosed)
    refine ⟨writer', ?_, hclosed', ?_⟩
    · rw [appendOutcomes, AofWriter.appendFrames, hfirst]
      exact hrest
    · rw [hcontents', hcontents, flatMap_cons, encodeValues_append, append_assoc]

variable {start : Startup} {ks : Keyspace}

theorem initializePersistence_aof {rdb aof : Bytes} (hne : aof ≠ []) (h : x.AofHolds start aof ks) :
    ∃ s writer, x.initializePersistence start rdb aof = .ok (s, writer) ∧ s.view = ks ∧
      s.maxMemoryEnabled = false ∧ writer = AofWriter.openWriter start.policy aof := by
  obtain ⟨values, w, hreads, hreplay, hview⟩ := h
  obtain ⟨stats', hload⟩ := loadLoop_readsAs hreads hreplay ⟨0, false⟩
  refine ⟨w.store, AofWriter.openWriter start.policy aof, ?_, hview, ?_, rfl⟩
  · rw [initializePersistence, if_neg hne, Stash.initializePersistence, loadFile, hload]
  · exact replay_plain hreplay rfl

/-- **A log that explains what was done to its keyspace gives the result when it is loaded.** -/
theorem AofHolds.extend {aof : Bytes} {ks' : Keyspace}
    (h : x.AofHolds start aof ks) (hdead : NoDeadlines ks) {frames : List Value}
    (hexplains : Explains x.rt frames ks ks') (hreads : ∀ frame ∈ frames, ReadsBack frame) :
    x.AofHolds start (aof ++ encodeValues frames) ks' := by
  obtain ⟨values, w, hvalues, hreplay, hview⟩ := h
  rw [← hview] at hexplains hdead
  obtain ⟨w', hlog, hview'⟩ := hexplains.replay (replay_plain hreplay rfl) hdead
    (replayedAt_snd start.envs (0 + values.length) frames)
  refine ⟨values ++ frames.map Value.norm, w', hvalues.append (readsAs_encodeValues hreads), ?_,
    hview'⟩
  rw [replayedAt_append, replay_append, hreplay, Option.bind_some, replay_norm]
  exact hlog

theorem aofHolds_nil (start : Startup) : x.AofHolds start [] fun _ => none :=
  ⟨[], _, .nil, rfl, rfl⟩

theorem encodeValues_ne_nil {frames : List Value} (h : frames ≠ []) : encodeValues frames ≠ [] := by
  obtain ⟨frame, rest, rfl⟩ := exists_cons_of_ne_nil h
  intro hnil
  have hpos := encodedLen_pos frame
  have hlength := length_encode frame
  rw [encodeValues, append_eq_nil_iff] at hnil
  rw [hnil.1, length_nil] at hlength
  omega

/-- A server that was just started, with no connection. -/
theorem steady_started {s : Store} (hplain : s.maxMemoryEnabled = false)
    (hdead : NoDeadlines s.view) : x.Steady ⟨s, fun _ => .fresh⟩ :=
  ⟨hplain, hdead, fun _ _ h => by cases h⟩

section

variable {y : Executor} (hrt : y.rt = x.rt) {start' : Startup} {aof : Bytes} {s : Store}
  (hplain : s.maxMemoryEnabled = false) (hdead : NoDeadlines s.view)
  (hheld : y.AofHolds start' aof s.view) {sent : List Submission} (hsent : x.Admits sent)
include hrt hplain hdead hheld hsent

/-- A log that held what a session started with holds what the session came to. -/
theorem aofHolds_session :
    y.AofHolds start'
        (aof ++ encodeValues ((x.session sent ⟨s, fun _ => .fresh⟩).2.flatMap durabilityOf))
        (x.session sent ⟨s, fun _ => .fresh⟩).1.store.view ∧
      NoDeadlines (x.session sent ⟨s, fun _ => .fresh⟩).1.store.view := by
  have hsteady := x.steady_started hplain hdead
  have hexplains := x.session_explains
    (fun s hs request h => (hsent s hs request h).replayable) hsteady
  have hreads := x.session_readsBack hsent hsteady fun _ _ h => by cases h
  rw [← hrt] at hexplains
  exact ⟨hheld.extend hdead hexplains hreads, hexplains.noDeadlines hdead⟩

/-- **What the second start makes of the log**: from a log that held what the first process started
with, the keyspace it came to. -/
theorem restart_from_log {rdb : Bytes} {policy : Policy} (hne : aof ++ encodeValues
      ((x.session sent ⟨s, fun _ => .fresh⟩).2.flatMap durabilityOf) ≠ []) :
    ∃ writer' s' reopened,
      appendOutcomes (AofWriter.openWriter policy aof) (x.session sent ⟨s, fun _ => .fresh⟩).2 =
        .ok writer' ∧
      y.initializePersistence start' rdb writer'.close.file = .ok (s', reopened) ∧
      s'.view = (x.session sent ⟨s, fun _ => .fresh⟩).1.store.view := by
  obtain ⟨writer', happend, hclosed, hcontents⟩ :=
    appendOutcomes_spec (x.session sent ⟨s, fun _ => .fresh⟩).2
      (show (AofWriter.openWriter policy aof).closed = false from rfl)
  rw [AofWriter.contents_openWriter] at hcontents
  obtain ⟨s', reopened, hstart, hview, -, -⟩ :=
    initializePersistence_aof hne (aofHolds_session hrt hplain hdead hheld hsent).1
  refine ⟨writer', s', reopened, happend, ?_, hview⟩
  rw [AofWriter.file_close hclosed, hcontents]
  exact hstart

end

/-! ## A session that logs one key -/

/-- A client authenticates, if there is a password, and sets a key. -/
def setOneKey (x : Executor) (key value : Bytes) : List Submission :=
  [⟨.ofClient 0, fun _ => .frozen firstSecond, commandFrame [CommandName.auth.text, x.requirePass]⟩,
    ⟨.ofClient 0, fun _ => .frozen firstSecond, commandFrame [CommandName.set.text, key, value]⟩]

/-- AUTH leaves a connection that may go on, and the store. -/
theorem execute_auth (s : Store) (envs : Nat → Env) :
    ∃ state, (x.requirePass = [] ∨ state.authenticated = true) ∧ state.monitoring = false ∧
      state.inTransaction = false ∧ state.subscribedChannels = [] ∧
      ∃ outcome, x.executeDetailed (.ofClient 0) envs
          (commandFrame [CommandName.auth.text, x.requirePass]) ⟨s, fun _ => .fresh⟩ =
        (⟨s, update (fun _ => .fresh) 0 state⟩, outcome) ∧ durabilityOf outcome = [] := by
  have hlookup : ∀ now, x.lookup ⟨CommandName.auth.text, [x.requirePass]⟩ now = .ok .auth :=
    fun _ => rfl
  by_cases hpass : x.requirePass = []
  · refine ⟨.fresh, .inl hpass, rfl, rfl, rfl, .error (.refused .authNotConfigured), ?_, rfl⟩
    rw [update_eq_self]
    simp only [executeDetailed, decode_command, executeRequest, validateContext,
      validateAuthContext, if_pos hpass, hlookup]
    change x.runCommand _ _ .auth _ _ = _
    simp only [runCommand, storeHandler, runOther, if_pos hpass, Except.map]
  · refine ⟨{ ClientState.fresh with authenticated := true }, .inr rfl, rfl, rfl, rfl,
      .ok { ExecuteResult.ofResponses [okResponse] with
        propagation := propagationFrames (.ofClient 0) .auth
          ⟨CommandName.auth.text, [x.requirePass]⟩ (.plain .null) }, ?_, rfl⟩
    have hvalidate : x.validateAuthContext (.ofClient 0)
        ⟨CommandName.auth.text, [x.requirePass]⟩ ⟨s, fun _ => .fresh⟩ = .ok () := if_neg hpass
    have hauth : ∀ state, x.handleAuth state [x.requirePass] =
        .ok ({ state with authenticated := true }, [okResponse]) := fun _ => if_pos rfl
    simp only [executeDetailed, decode_command, executeRequest, validateContext, hvalidate, hlookup]
    change x.runCommand _ _ .auth _ _ = _
    simp only [runCommand, storeHandler, runOther, if_neg hpass, Except.map, hauth]
    rfl

/-- SET of a connection that is in no mode of its own is run at once. -/
theorem execute_set_runs {w : World}
    (hauth : x.requirePass = [] ∨ (w.clients 0).authenticated = true)
    (hmonitoring : (w.clients 0).monitoring = false)
    (htransaction : (w.clients 0).inTransaction = false)
    (hsubscribed : (w.clients 0).subscribedChannels = []) (key value : Bytes) (envs : Nat → Env) :
    x.executeDetailed (.ofClient 0) envs (commandFrame [CommandName.set.text, key, value]) w =
      x.runCommand (.ofClient 0) (envs 0) .set ⟨CommandName.set.text, [key, value]⟩ w := by
  have hlookup : ∀ now, x.lookup ⟨CommandName.set.text, [key, value]⟩ now = .ok .set :=
    fun _ => rfl
  have hclient : w.clientState (.ofClient 0) = some (w.clients 0) := rfl
  have hmode : validateSubscriptionContext (.ofClient 0) ⟨CommandName.set.text, [key, value]⟩ w =
      .ok () := by
    simp only [validateSubscriptionContext, hclient, ClientState.isSubscribed, hsubscribed,
      hmonitoring]
    rfl
  have hallowed : x.validateAuthContext (.ofClient 0) ⟨CommandName.set.text, [key, value]⟩ w =
      .ok () := by
    rcases hauth with hauth | hauth
    · exact if_pos hauth
    · simp only [validateAuthContext, hclient, hauth]
      split <;> rfl
  have hvalid : x.validateContext (.ofClient 0) ⟨CommandName.set.text, [key, value]⟩ w = .ok () := by
    simp only [validateContext, hmode, hallowed]
    rfl
  have hqueue : x.maybeQueueRequest (.ofClient 0) ⟨CommandName.set.text, [key, value]⟩
      ((envs 0).clock 0) w = none := by
    simp only [maybeQueueRequest, hclient, htransaction]
    rfl
  simp only [executeDetailed, decode_command, executeRequest, hvalid, hqueue, hlookup]

/-- SET of a connection that may go on: the key is set, and the command is logged. -/
theorem execute_set {w : World} (hplain : w.store.maxMemoryEnabled = false)
    (hauth : x.requirePass = [] ∨ (w.clients 0).authenticated = true)
    (hmonitoring : (w.clients 0).monitoring = false)
    (htransaction : (w.clients 0).inTransaction = false)
    (hsubscribed : (w.clients 0).subscribedChannels = []) (key value : Bytes) (envs : Nat → Env) :
    (x.executeDetailed (.ofClient 0) envs (commandFrame [CommandName.set.text, key, value]) w).1.store.view =
        update w.store.view key (some ⟨.string value, 0⟩) ∧
      durabilityOf (x.executeDetailed (.ofClient 0) envs
          (commandFrame [CommandName.set.text, key, value]) w).2 =
        [propagationFrame ⟨CommandName.set.text, [key, value]⟩] := by
  rw [execute_set_runs hauth hmonitoring htransaction hsubscribed]
  obtain ⟨hrun, houtcome⟩ := @runCommand_eq x (.ofClient 0) (envs 0) .set
    ⟨CommandName.set.text, [key, value]⟩ _ rfl w
  obtain ⟨hstore, hanswer⟩ := storeHandler_effect
    (show storeHandler x.rt (Context.ofClient 0).inline .set = some _ from rfl) w.store [key, value] (envs 0)
  obtain ⟨hok, hview⟩ := (mutate_acts hplain key (.set value 0) ((envs 0).after 2)).of_apply
    (show _ = Except.ok (some ⟨.string value, 0⟩) from rfl)
  rw [hok] at hanswer
  obtain ⟨reply, hreply, hevicted, hdeadline⟩ := hanswer
  rw [hrun, hstore, houtcome, hreply]
  refine ⟨hview, ?_⟩
  simp only [Except.map, durabilityOf, durabilityFrames, hevicted, hdeadline]
  rfl

/-- What the session comes to on any store. -/
theorem session_setOneKey {s : Store} (hplain : s.maxMemoryEnabled = false) (key value : Bytes) :
    (x.session (x.setOneKey key value) ⟨s, fun _ => .fresh⟩).1.store.view =
        update s.view key (some ⟨.string value, 0⟩) ∧
      (x.session (x.setOneKey key value) ⟨s, fun _ => .fresh⟩).2.flatMap durabilityOf =
        [propagationFrame ⟨CommandName.set.text, [key, value]⟩] := by
  obtain ⟨state, hauth, hmonitoring, htransaction, hsubscribed, outcome, hfirst, hnone⟩ :=
    @execute_auth x s fun _ => .frozen firstSecond
  obtain ⟨hview, hframes⟩ := @execute_set x
    ⟨s, update (fun _ => .fresh) 0 state⟩ hplain hauth hmonitoring htransaction hsubscribed
    key value fun _ => .frozen firstSecond
  simp only [session, setOneKey, hfirst, flatMap_cons, flatMap_nil, hnone, hframes]
  exact ⟨hview, rfl⟩

theorem admits_setOneKey (hpass : x.requirePass.length ≤ maxBulkStringLength) {key value : Bytes}
    (hkey : key.length ≤ maxBulkStringLength) (hvalue : value.length ≤ maxBulkStringLength) :
    x.Admits (x.setOneKey key value) := by
  intro s hs request hdecode
  simp only [setOneKey, mem_cons, not_mem_nil, or_false] at hs
  rcases hs with rfl | rfl
  · rw [decode_command] at hdecode
    cases hdecode
    refine ⟨⟨⟨show CommandName.auth.text ≠ _ by decide, show CommandName.auth.text ≠ _ by decide⟩,
      rfl, rfl⟩, show 1 < maxArrayElements by decide, fun arg harg => ?_⟩
    rw [mem_singleton.mp harg]
    exact hpass
  · rw [decode_command] at hdecode
    cases hdecode
    refine ⟨⟨⟨show CommandName.set.text ≠ _ by decide, show CommandName.set.text ≠ _ by decide⟩,
      rfl, rfl⟩, show 2 < maxArrayElements by decide, fun arg harg => ?_⟩
    simp only [mem_cons, not_mem_nil, or_false] at harg
    rcases harg with rfl | rfl
    · exact hkey
    · exact hvalue

/-- There is a key other than a given one. -/
theorem exists_other_key (key : Bytes) :
    ∃ other : Bytes, other ≠ key ∧ other.length ≤ maxBulkStringLength := by
  by_cases h : key = ascii "a"
  · exact ⟨ascii "b", by rw [h]; decide, by decide⟩
  · exact ⟨ascii "a", fun h' => h h'.symm, by decide⟩

/-! ## The two sources -/

theorem initializePersistence_rdb {start : Startup} {rdb : Bytes} {ks : Keyspace}
    (h : RdbHolds start rdb ks) :
    ∃ s, x.initializePersistence start rdb [] =
        .ok (s, AofWriter.openWriter start.policy []) ∧ s.view = ks ∧
      s.maxMemoryEnabled = false := by
  obtain ⟨loaded, hload, hview⟩ := h
  refine ⟨loaded.store, ?_, hview, Rdb.loadReader_plain rfl hload⟩
  rw [initializePersistence, if_pos rfl, hload]

/-- With an empty log, the keys of the RDB file are lost as soon as another key is logged. -/
theorem rdb_lost {y : Executor} (hrt : y.rt = x.rt) {start' : Startup} {rdb : Bytes} (hrdb : RdbHolds start rdb ks)
    (hpass : x.requirePass.length ≤ maxBulkStringLength) {key : Bytes}
    (hkey : key.length ≤ maxBulkStringLength)
    (h : x.Restores y start start' rdb [] (x.setOneKey key [])) {k : Bytes} (hk : k ≠ key) :
    ks k = none := by
  obtain ⟨s, hstart, hview, hplain⟩ := @initializePersistence_rdb x start rdb ks hrdb
  obtain ⟨s₁, writer, writer', s', reopened, hstart₁, happend, hstart', hrestored⟩ := h
  obtain ⟨rfl, rfl⟩ := Prod.mk.inj (Except.ok.inj (hstart.symm.trans hstart₁))
  obtain ⟨hafter, hframes⟩ := @session_setOneKey x s hplain key []
  -- the same session on an empty store logs the same, so the second start makes what that came to
  obtain ⟨hafter₀, hframes₀⟩ := @session_setOneKey x (.newStore start.hash) rfl key []
  have hadmits := admits_setOneKey hpass hkey (show ([] : Bytes).length ≤ _ from Nat.zero_le _)
  obtain ⟨writer₀, s₀, reopened₀, happend₀, hstart₀, hview₀⟩ :=
    @restart_from_log x y hrt start' [] (.newStore start.hash) rfl (fun _ _ he => by cases he)
      (aofHolds_nil start') _ hadmits rdb start.policy (by
        rw [hframes₀]
        exact encodeValues_ne_nil (by simp))
  have hsame : writer'.close.file = writer₀.close.file := by
    obtain ⟨written, hspec, hclosed, hcontents⟩ := appendOutcomes_spec
      (x.session (x.setOneKey key []) ⟨s, fun _ => .fresh⟩).2
      (show (AofWriter.openWriter start.policy []).closed = false from rfl)
    obtain ⟨written₀, hspec₀, hclosed₀, hcontents₀⟩ := appendOutcomes_spec
      (x.session (x.setOneKey key []) ⟨.newStore start.hash, fun _ => .fresh⟩).2
      (show (AofWriter.openWriter start.policy []).closed = false from rfl)
    cases happend.symm.trans hspec
    cases happend₀.symm.trans hspec₀
    rw [AofWriter.file_close hclosed, AofWriter.file_close hclosed₀, hcontents, hcontents₀, hframes,
      hframes₀]
  rw [hsame] at hstart'
  obtain ⟨rfl, -⟩ := Prod.mk.inj (Except.ok.inj (hstart'.symm.trans hstart₀))
  have hlost := congrFun (hrestored.symm.trans hview₀) k
  rw [hafter, hafter₀, update_of_ne hk, update_of_ne hk, hview] at hlost
  exact hlost

/-- **A restart restores every session exactly if** the log was not empty at the first start, or the
RDB file has no key.  The log is one of complete frames that loads alike at both starts, and no key
of the RDB file expires before the second one. -/
theorem restart_restores_iff (x y : Executor) (hrt : y.rt = x.rt)
    (hpass : x.requirePass.length ≤ maxBulkStringLength) (start start' : Startup) (rdb aof : Bytes)
    (ks logged : Keyspace) (hrdb : RdbHolds start rdb ks) (hrdb' : RdbHolds start' rdb ks)
    (haof : x.AofHolds start aof logged) (haof' : y.AofHolds start' aof logged)
    (hdead : NoDeadlines logged) :
    (∀ sent, x.Admits sent → x.Restores y start start' rdb aof sent) ↔
      aof ≠ [] ∨ ks = fun _ => none := by
  constructor
  · intro h
    by_cases haof : aof = []
    · -- a session that sets one other key makes the log nonempty, and `k` is not in the log
      refine .inr (funext fun k => ?_)
      obtain ⟨key, hne, hkey⟩ := exists_other_key k
      refine rdb_lost hrt hrdb hpass hkey (haof ▸ h _ ?_) hne.symm
      exact admits_setOneKey hpass hkey (show ([] : Bytes).length ≤ _ from Nat.zero_le _)
    · exact .inl haof
  · intro h sent hsent
    by_cases hempty : aof = []
    · subst hempty
      obtain rfl := h.resolve_left fun hne => hne rfl
      obtain ⟨s, hstart, hview, hplain⟩ := @initializePersistence_rdb x start rdb _ hrdb
      have hnone : NoDeadlines s.view := by
        rw [hview]
        exact fun _ _ he => by cases he
      by_cases hframes : (x.session sent ⟨s, fun _ => .fresh⟩).2.flatMap durabilityOf = []
      · -- nothing was logged and nothing was changed, and the RDB file is loaded again
        obtain ⟨writer', happend, hclosed, hcontents⟩ :=
          appendOutcomes_spec (x.session sent ⟨s, fun _ => .fresh⟩).2
            (show (AofWriter.openWriter start.policy []).closed = false from rfl)
        rw [hframes, AofWriter.contents_openWriter] at hcontents
        obtain ⟨s', hstart', hview', -⟩ := @initializePersistence_rdb y start' rdb _ hrdb'
        refine ⟨s, _, writer', s', AofWriter.openWriter start'.policy [], hstart, happend, ?_, ?_⟩
        · rw [AofWriter.file_close hclosed, hcontents]
          exact hstart'
        · have hexplains := x.session_explains
            (fun s hs request h => (hsent s hs request h).replayable) (steady_started hplain hnone)
          rw [hframes] at hexplains
          obtain ⟨records, hdenotes, hrun⟩ := hexplains
          cases hdenotes
          rw [hview', ← hview]
          exact Option.some.inj hrun
      · obtain ⟨writer', s', reopened, hrest⟩ := restart_from_log hrt hplain hnone
          (hview ▸ aofHolds_nil start') hsent (encodeValues_ne_nil hframes)
        exact ⟨s, _, writer', s', reopened, hstart, hrest⟩
    · obtain ⟨s, writer, hstart, hview, hplain, rfl⟩ := initializePersistence_aof hempty haof
      obtain ⟨writer', s', reopened, hrest⟩ := restart_from_log hrt hplain (hview ▸ hdead)
        (hview ▸ haof') hsent fun hnil => hempty (append_eq_nil_iff.mp hnil).1
      exact ⟨s, _, writer', s', reopened, hstart, hrest⟩

/-- Everything happens in the first second. -/
def firstStart : Startup :=
  ⟨.always, fun _ => 0, fun _ => .frozen firstSecond⟩

theorem rdbHolds_empty (start : Startup) : RdbHolds start Rdb.emptySnapshot fun _ => none :=
  ⟨⟨.newStore start.hash, 0, 0⟩,
    Rdb.load_buildSnapshot _ (fun _ h => absurd h not_mem_nil) 0 _, rfl⟩

/-- An RDB file with the key `k`. -/
def oneKeyRdb : Bytes :=
  Rdb.buildSnapshot [⟨ascii "k", ascii "v", 0⟩] 1000

theorem rdbHolds_oneKey : ∃ ks, RdbHolds firstStart oneKeyRdb ks ∧
    ks (ascii "k") = some ⟨.string (ascii "v"), 0⟩ := by
  have hkept : ∀ t, ¬Rdb.Dropped t ⟨ascii "k", ascii "v", 0⟩ := fun t h => absurd h.1 (by decide)
  obtain ⟨loaded, hload, -, hstored, -⟩ := @Rdb.foldlM_loadEntry_kept firstStart.envs
    [⟨ascii "k", ascii "v", 0⟩] (fun e he i => mem_singleton.mp he ▸ hkept _)
    (nodup_singleton _) ⟨.newStore firstStart.hash, 0, 0⟩ rfl
  refine ⟨loaded.store.view, ⟨loaded, ?_, rfl⟩, hstored _ (mem_singleton_self _)⟩
  have hfits : Rdb.Fits ⟨ascii "k", ascii "v", 0⟩ := ⟨by decide, by decide, by decide⟩
  rw [oneKeyRdb, Rdb.loadReader,
    Rdb.load_buildSnapshot _ fun e he => mem_singleton.mp he ▸ hfits]
  exact hload

/-- A log with the key `j`. -/
def oneKeyLog : Bytes :=
  encodeValues [propagationFrame ⟨CommandName.set.text, [ascii "j", ascii "w"]⟩]

theorem aofHolds_oneKey : ∃ logged, quiet.AofHolds firstStart oneKeyLog logged ∧
    NoDeadlines logged := by
  have hadmits : quiet.Admits (quiet.setOneKey (ascii "j") (ascii "w")) :=
    admits_setOneKey (by decide) (by decide) (by decide)
  obtain ⟨haof, hdead⟩ := @aofHolds_session quiet quiet rfl firstStart [] (.newStore firstStart.hash)
    rfl (fun _ _ h => by cases h) (aofHolds_nil firstStart) _ hadmits
  rw [(session_setOneKey rfl _ _).2] at haof
  exact ⟨_, haof, hdead⟩

/-- A session is restored without any key in the RDB file, and with one if the log has a key. -/
theorem restart_restores_set :
    quiet.Restores .quiet firstStart firstStart Rdb.emptySnapshot []
        (quiet.setOneKey (ascii "k") (ascii "v")) ∧
      quiet.Restores .quiet firstStart firstStart oneKeyRdb oneKeyLog
        (quiet.setOneKey (ascii "k") (ascii "v")) := by
  have hadmits : quiet.Admits (quiet.setOneKey (ascii "k") (ascii "v")) :=
    admits_setOneKey (by decide) (by decide) (by decide)
  obtain ⟨ks, hrdb, -⟩ := rdbHolds_oneKey
  obtain ⟨logged, haof, hdead⟩ := aofHolds_oneKey
  exact ⟨(restart_restores_iff _ _ rfl (by decide) _ _ _ _ _ _ (rdbHolds_empty _)
      (rdbHolds_empty _) (aofHolds_nil _) (aofHolds_nil _) fun _ _ h => by cases h).mpr
        (.inr rfl) _ hadmits,
    (restart_restores_iff _ _ rfl (by decide) _ _ _ _ _ _ hrdb hrdb haof haof hdead).mpr
      (.inl (encodeValues_ne_nil (cons_ne_nil _ _))) _ hadmits⟩

/-- The RDB file has `k` and the log is empty; after SET j the second start holds `j` alone. -/
theorem restart_loses_rdb_key :
    ∃ ks, RdbHolds firstStart oneKeyRdb ks ∧
      ks (ascii "k") = some ⟨.string (ascii "v"), 0⟩ ∧
      quiet.Admits (quiet.setOneKey (ascii "j") []) ∧
      ¬quiet.Restores .quiet firstStart firstStart oneKeyRdb []
        (quiet.setOneKey (ascii "j") []) := by
  obtain ⟨ks, hrdb, hkey⟩ := rdbHolds_oneKey
  refine ⟨ks, hrdb, hkey, admits_setOneKey (by decide) (by decide) (by decide), fun h => ?_⟩
  have hlost := rdb_lost rfl hrdb (by decide) (by decide) h
    (show ascii "k" ≠ ascii "j" by decide)
  rw [hkey] at hlost
  cases hlost

end Executor

end Stash
