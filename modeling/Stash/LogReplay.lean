import Stash.LogRecords

/-!
# Replaying a log

A request is replayable if its frames mean the same at any time: it is neither BLPOP nor WAIT, it
sets no expiry and asks for no automatic stream ID.  A store command of such a request leaves frames
for the records that led from the store before it to the store after it (`StoreRun.explains`), and so
does a request (`execute_explains`) and a whole session.  Executing the frames of a session on
an empty store therefore reproduces its keyspace; and where propagation and durability frames are
the same, so does a replica.
-/

namespace Stash

open DecimalText GoMap Handlers List Store

/-! ## Replayable requests -/

/-- A SET with EX, PX or PXAT. -/
def Request.setsExpiry (rt : Runtime) (request : Request) : Bool :=
  request.name = CommandName.set.text &&
    match request.args with
    | [_, _, option, _] =>
      [ascii "EX", ascii "PX", ascii "PXAT"].contains (rt.toUpper option)
    | _ => false

/-- An XADD with an automatic ID. -/
def Request.automaticID (request : Request) : Bool :=
  request.name = CommandName.xAdd.text && request.args[1]? = some (ascii "*")

/-- The frames of the request mean the same at any time. -/
structure Replayable (rt : Runtime) (request : Request) : Prop where
  prompt : Executor.Prompt request
  noExpiry : request.setsExpiry rt = false
  explicitID : request.automaticID = false

variable {rt : Runtime} {a b : Keyspace} {frames : List Value}

/-- A deadline comes from one of the three options. -/
theorem parseExpiryMillis_options {options : List Bytes} {now : Instant} {d : Int}
    (h : parseExpiryMillis rt options now = .ok d) :
    options = [] ∧ d = 0 ∨ ∃ option raw, options = [option, raw] ∧
      [ascii "EX", ascii "PX", ascii "PXAT"].contains (rt.toUpper option) = true := by
  unfold parseExpiryMillis at h
  split at h
  · cases h
    exact .inl ⟨rfl, rfl⟩
  · rename_i option raw
    refine .inr ⟨option, raw, rfl, ?_⟩
    split at h
    · cases h
    · split at h
      · cases h
      · split at h
        · rename_i hunit
          rw [hunit]
          decide
        · split at h
          · rename_i hunit
            rw [hunit]
            decide
          · split at h
            · rename_i hunit
              rw [hunit]
              decide
            · cases h
  · cases h

/-- The mutation of a replayable command sets no deadline, depends on no clock, and is asked for by
the arguments at any time. -/
theorem Replayable.write {c : CommandName} {args : List Bytes} (h : Replayable rt ⟨c.text, args⟩)
    {now : Instant} {key : Bytes} {m : Mutation} (heffect : c.effect rt args now = .write key m) :
    m.deadline = 0 ∧ m.Timeless ∧ (c = .set → args.length = 2) := by
  by_cases hset : c = .set
  · subst hset
    obtain ⟨value, options, d, rfl, rfl, hparse⟩ := effect_set heffect
    rcases parseExpiryMillis_options hparse with ⟨rfl, rfl⟩ | ⟨option, raw, rfl, hoption⟩
    · exact ⟨rfl, trivial, fun _ => rfl⟩
    · have hno := h.noExpiry
      rw [Request.setsExpiry, Bool.and_eq_false_iff] at hno
      rcases hno with hno | hno
      · exact absurd rfl (of_decide_eq_false hno)
      · cases hno.symm.trans hoption
  · refine ⟨?_, ?_, fun hc => absurd hc hset⟩
    · cases m with
      | set value expiresAt => exact absurd ((effect_write heffect).set value expiresAt rfl) hset
      | _ => rfl
    · cases m with
      | xAdd rawID values =>
        obtain ⟨rfl, rfl⟩ := (effect_write heffect).xAdd rawID values rfl
        have hno := h.explicitID
        rw [Request.automaticID, Bool.and_eq_false_iff] at hno
        rcases hno with hno | hno
        · exact absurd rfl (of_decide_eq_false hno)
        · intro hstar
          exact of_decide_eq_false hno (congrArg some hstar)
      | _ => trivial

/-! ## The records of a request -/

/-- The frames are those of records that lead from one keyspace to the other. -/
def Explains (rt : Runtime) (frames : List Value) (before after : Keyspace) : Prop :=
  ∃ records, List.Forall₂ (Denotes rt) frames records ∧
    CommutingLog.run LogRecord.act records before = some after

theorem Explains.nil (rt : Runtime) (ks : Keyspace) : Explains rt [] ks ks :=
  ⟨[], .nil, rfl⟩

theorem Explains.append {frames' : List Value} {c : Keyspace} (h : Explains rt frames a b)
    (h' : Explains rt frames' b c) : Explains rt (frames ++ frames') a c := by
  obtain ⟨records, hdenotes, hrun⟩ := h
  obtain ⟨records', hdenotes', hrun'⟩ := h'
  refine ⟨records ++ records', rel_append hdenotes hdenotes', ?_⟩
  rw [CommutingLog.run_append, hrun]
  exact hrun'

/-- **Frames that overtake no frame for one of their keys explain the same.** -/
theorem Explains.promote {log before after : List Value}
    (h : Explains rt (log ++ (before ++ (frames ++ after))) a b)
    (hdisjoint : ∀ early ∈ before, ∀ frame ∈ frames,
      ∀ key ∈ frameKeys rt early, key ∉ frameKeys rt frame) :
    Explains rt (log ++ (frames ++ (before ++ after))) a b := by
  obtain ⟨records, hdenotes, hrun⟩ := h
  obtain ⟨logged, rest, rfl, hlogged, hrest⟩ := split_frames hdenotes
  obtain ⟨first, rest, rfl, hfirst, hrest⟩ := split_frames hrest
  obtain ⟨batch, later, rfl, hbatch, hlater⟩ := split_frames hrest
  have hindependent : ∀ a ∈ first, ∀ b ∈ batch, CommutingLog.Independent LogRecord.act a b := by
    intro a ha b hb
    obtain ⟨early, hearly, hdenotes_a⟩ := exists_frame hfirst ha
    obtain ⟨frame, hframe, hdenotes_b⟩ := exists_frame hbatch hb
    refine LogRecord.independent_of_disjoint fun k hk => ?_
    rw [← hdenotes_a.keys] at hk
    rw [← hdenotes_b.keys]
    exact hdisjoint early hearly frame hframe k hk
  refine ⟨logged ++ (batch ++ (first ++ later)),
    rel_append hlogged (rel_append hbatch (rel_append hfirst hlater)), ?_⟩
  rw [← CommutingLog.run_promote logged later hindependent]
  exact hrun

theorem Explains.noDeadlines (h : Explains rt frames a b) (ha : NoDeadlines a) : NoDeadlines b := by
  obtain ⟨records, hdenotes, hrun⟩ := h
  refine LogRecord.run_noDeadlines (fun record hrecord => ?_) ha hrun
  obtain ⟨frame, -, hdenotes⟩ := exists_frame hdenotes hrecord
  exact hdenotes.plain

/-- Frames that explain a keyspace reproduce it, at any readings of the clock. -/
theorem Explains.replay {y : Executor} {w : World} {ks : Keyspace}
    (h : Explains y.rt frames w.store.view ks) (hplain : w.store.maxMemoryEnabled = false)
    (hdead : NoDeadlines w.store.view) {logged : List (Env × Value)}
    (hlogged : logged.map Prod.snd = frames) :
    ∃ w', y.replay logged w = some w' ∧ w'.store.view = ks := by
  obtain ⟨records, hdenotes, hrun⟩ := h
  obtain ⟨w', hreplay, hview, -⟩ :=
    replay_of_denotes hdenotes hlogged hplain (fun _ _ k _ => hdead k) hrun
  exact ⟨w', hreplay, hview⟩

/-- **The frames of a store command explain what it did.** -/
theorem StoreRun.explains {x : Executor} {r : StoreRun} (hvalid : r.Valid x)
    (hreplayable : Replayable x.rt r.request) (inline : Bool) {s : Store}
    (hplain : s.maxMemoryEnabled = false) (hdead : NoDeadlines s.view) :
    Explains x.rt (r.frames (r.handle x inline s).2) s.view (r.handle x inline s).1.view ∧
      (r.handle x inline s).1.maxMemoryEnabled = false := by
  have hblpop : r.command ≠ .blPop := fun hc => hreplayable.prompt.1 (by rw [request, hc])
  cases r.handle_outcome x inline hblpop s with
  | quiet maxMemory fades frames =>
    have hsame := hdead.eq_of_fades (fades 9223372036854 fun i => (r.env.clock i).millis_le)
    rw [frames, hsame]
    exact ⟨.nil _ _, (enabled_of_eq maxMemory).trans hplain⟩
  | failed key m err effect error store answer =>
    have hsame := hdead.eq_of_fades ((mutate_acts hplain key m (r.env.after 2)).fades error)
    have hlimit := (s.mutate_spec key m (r.env.after 2)).1
    rw [store, answer, hsame]
    exact ⟨.nil _ _, (enabled_of_eq hlimit).trans hplain⟩
  | wrote key m evicted effect ok store frames =>
    have hlimit := (s.mutate_spec key m (r.env.after 2)).1
    obtain ⟨hdeadline, htimeless, hlength⟩ := hreplayable.write effect
    obtain ⟨e, happly, rfl, hview⟩ := (mutate_acts hplain key m (r.env.after 2)).entry ok
    rw [hdead.liveEntry key, m.apply_timeless htimeless _ 0] at happly
    have hlogged := fun now₀ now => @logged_write x.rt r.command r.args _ _ key m hvalid effect
      now₀ now (.inr fun hc => .inr (hlength hc))
    rw [frames, store, hview]
    refine ⟨⟨[.write key m], .cons ?_ .nil, ?_⟩, ?_⟩
    · exact denotes_write (decode_commandFrameOf x.rt r.command r.args m.deadline)
        (fun now => (hlogged now now).1) (fun now => (hlogged now now).2) htimeless hdeadline
    · rw [CommutingLog.run_singleton]
      simp only [LogRecord.act, happly]
    · exact (enabled_of_eq hlimit).trans hplain
  | deleted keys request nonempty store frames =>
    obtain ⟨hlookup, hlimit⟩ := s.deleteMany_spec keys (r.env.after 2)
    rw [frames, store]
    refine ⟨⟨[.delete keys], .cons (denotes_delete x.rt nonempty) .nil, ?_⟩, ?_⟩
    · rw [CommutingLog.run_singleton, LogRecord.act]
      congr 1
      funext k
      simp only [view, hlookup k]
      split <;> rfl
    · exact (enabled_of_eq hlimit).trans hplain

/-- **The frames of store commands explain what they did**, one after the other. -/
theorem StoreRun.performAll_explains {x : Executor} {runs : List StoreRun}
    (hruns : ∀ r ∈ runs, r.Valid x ∧ Replayable x.rt r.request) (inline : Bool) {s : Store}
    (hplain : s.maxMemoryEnabled = false) (hdead : NoDeadlines s.view) :
    Explains x.rt ((performAll x inline runs s).2.map Prod.snd) s.view
        (performAll x inline runs s).1.view ∧
      (performAll x inline runs s).1.maxMemoryEnabled = false := by
  induction runs generalizing s with
  | nil => exact ⟨.nil _ _, hplain⟩
  | cons r runs ih =>
    obtain ⟨hvalid, hreplayable⟩ := hruns r mem_cons_self
    obtain ⟨hfirst, hplain'⟩ := explains hvalid hreplayable inline hplain hdead
    obtain ⟨hrest, hfinal⟩ := ih (fun r hr => hruns r (mem_cons_of_mem _ hr)) hplain'
      (hfirst.noDeadlines hdead)
    refine ⟨?_, hfinal⟩
    have hframes : (performAll x inline (r :: runs) s).2.map Prod.snd =
        r.frames (r.handle x inline s).2 ++
          (performAll x inline runs (r.handle x inline s).1).2.map Prod.snd := by
      simp only [performAll, map_append, map_map]
      congr 1
      exact map_id _
    rw [hframes]
    exact hfirst.append hrest

/-! ## Sessions -/

namespace Executor

variable (x : Executor)

/-- A server on which only replayable requests were executed: no memory limit, no deadlines, and
nothing else in the queues. -/
structure Steady (w : World) : Prop where
  plain : w.store.maxMemoryEnabled = false
  dead : NoDeadlines w.store.view
  queued : Queued (Replayable x.rt) w

variable {request : Request} {w : World} {value : Value}

/-- **The store commands of a request are its own or queued ones**, so that they have whatever the
request and the queues have. -/
theorem executeRequest_accepted {P : Request → Prop} (hrequest : P request) (hqueued : Queued P w)
    (ctx : Context) (envs : Nat → Env) :
    ∃ runs, x.RunsTo ctx w (x.executeRequest ctx envs request w) runs ∧
      ∀ r ∈ runs, r.Valid x ∧ P r.request := by
  obtain ⟨runs, hruns, hfrom⟩ := x.executeRequest_runs ctx envs request w
  refine ⟨runs, hruns, fun r hr => ?_⟩
  rcases hfrom with hdirect | ⟨-, -, hqueue⟩
  · rcases hdirect with rfl | ⟨r', rfl, -, haccepted, -⟩
    · cases hr
    · obtain rfl := mem_singleton.mp hr
      exact ⟨haccepted.2, by rw [haccepted.1]; exact hrequest⟩
  · obtain ⟨state, hstate, queued, hmem, haccepted⟩ := hqueue r hr
    rw [World.clientState, Option.map_eq_some_iff] at hstate
    obtain ⟨id, -, rfl⟩ := hstate
    exact ⟨haccepted.2, by rw [haccepted.1]; exact hqueued id queued hmem⟩

/-- **The frames of a request explain what it did.** -/
theorem executeRequest_explains (hrequest : Replayable x.rt request)
    (hw : x.Steady w) (ctx : Context) (envs : Nat → Env) :
    Explains x.rt (durabilityOf (x.executeRequest ctx envs request w).2) w.store.view
        (x.executeRequest ctx envs request w).1.store.view ∧
      x.Steady (x.executeRequest ctx envs request w).1 := by
  have hqueued : Queued (Replayable x.rt) (x.executeRequest ctx envs request w).1 :=
    hw.queued.executeRequest x ctx envs hrequest
  have hprompt : NotCanceled (x.executeRequest ctx envs request w).2 :=
    x.executeRequest_not_canceled hrequest.prompt
      (fun id queued h => (hw.queued id queued h).prompt) ctx envs
  obtain ⟨runs, hruns, haccepted⟩ := x.executeRequest_accepted hrequest hw.queued ctx envs
  obtain ⟨hexplains, hplain⟩ :=
    StoreRun.performAll_explains haccepted ctx.inline hw.plain hw.dead
  rw [← hruns.store] at hplain
  rw [hruns.frames hprompt, hruns.store]
  refine ⟨hexplains, hplain, ?_, hqueued⟩
  rw [hruns.store]
  exact hexplains.noDeadlines hw.dead

theorem execute_explains
    (hvalue : ∀ request, decodeRequest x.rt value = .ok request → Replayable x.rt request)
    (hw : x.Steady w) (ctx : Context) (envs : Nat → Env) :
    Explains x.rt (durabilityOf (x.executeDetailed ctx envs value w).2) w.store.view
        (x.executeDetailed ctx envs value w).1.store.view ∧
      x.Steady (x.executeDetailed ctx envs value w).1 := by
  unfold executeDetailed
  split
  · exact ⟨.nil _ _, hw⟩
  · rename_i request hdecode
    exact x.executeRequest_explains (hvalue request hdecode) hw ctx envs

/-- What a client sent, with the surroundings it is executed in. -/
structure Submission where
  ctx : Context
  envs : Nat → Env
  value : Value

/-- Execute what clients sent, one after the other: the server afterwards and the outcomes. -/
def session : List Submission → World → World × List (Except Failure ExecuteResult)
  | [], w => (w, [])
  | sent :: rest, w =>
    let (w', outcome) := x.executeDetailed sent.ctx sent.envs sent.value w
    let (w'', outcomes) := session rest w'
    (w'', outcome :: outcomes)

/-- The propagation frames of an outcome. -/
def propagationOf : Except Failure ExecuteResult → List Value
  | .ok result => result.propagation
  | .error _ => []

/-- A write command whose effect depends on nothing but the keyspace, or any command that does not
write: everything but BLPOP, WAIT, PUBLISH, XADD and a SET with an expiry. -/
structure Deterministic (request : Request) : Prop where
  name : ∀ c ∈ [CommandName.blPop, .wait, .publish, .xAdd], request.name ≠ c.text
  noExpiry : request.setsExpiry x.rt = false

theorem Deterministic.replayable (h : x.Deterministic request) :
    Replayable x.rt request where
  prompt := ⟨h.name .blPop (by decide), h.name .wait (by decide)⟩
  noExpiry := h.noExpiry
  explicitID := by
    rw [Request.automaticID, Bool.and_eq_false_iff]
    exact .inl (decide_eq_false (h.name .xAdd (by decide)))

theorem Deterministic.mirrored (h : x.Deterministic request) : Mirrored request :=
  ⟨h.name .xAdd (by decide), h.name .publish (by decide)⟩

/-- The session's requests are deterministic and come from clients. -/
def FromClients (sent : List Submission) : Prop :=
  ∀ s ∈ sent, s.ctx.origin = false ∧
    ∀ request, decodeRequest x.rt s.value = .ok request → x.Deterministic request

/-- **The frames of a session explain what it did.** -/
theorem session_explains {sent : List Submission}
    (hsent : ∀ s ∈ sent, ∀ request, decodeRequest x.rt s.value = .ok request →
      Replayable x.rt request) (hw : x.Steady w) :
    Explains x.rt ((x.session sent w).2.flatMap durabilityOf) w.store.view
      (x.session sent w).1.store.view := by
  induction sent generalizing w with
  | nil => exact .nil _ _
  | cons s sent ih =>
    obtain ⟨hfirst, hw'⟩ :=
      x.execute_explains (hsent s mem_cons_self) hw s.ctx s.envs
    exact hfirst.append (ih (fun s hs => hsent s (mem_cons_of_mem _ hs)) hw')

theorem execute_sameFrames
    (hvalue : ∀ request, decodeRequest x.rt value = .ok request → Mirrored request)
    (hqueued : Queued Mirrored w) {ctx : Context} (horigin : ctx.origin = false)
    (envs : Nat → Env) :
    propagationOf (x.executeDetailed ctx envs value w).2 =
      durabilityOf (x.executeDetailed ctx envs value w).2 := by
  unfold executeDetailed
  split
  · rfl
  · rename_i request hdecode
    have hsame := x.executeRequest_sameFrames (hvalue request hdecode) hqueued horigin envs
    cases houtcome : (x.executeRequest ctx envs request w).2 with
    | error failure => rfl
    | ok result => exact hsame result houtcome

theorem Queued.executeDetailed {P : Request → Prop} (h : Queued P w) (ctx : Context)
    (envs : Nat → Env) (hvalue : ∀ request, decodeRequest x.rt value = .ok request → P request) :
    Queued P (x.executeDetailed ctx envs value w).1 := by
  unfold Executor.executeDetailed
  split
  · exact h
  · rename_i request hdecode
    exact h.executeRequest x ctx envs (hvalue request hdecode)

/-- **A session propagates what it logs.** -/
theorem session_sameFrames {sent : List Submission} (hsent : x.FromClients sent)
    (hqueued : Queued Mirrored w) :
    (x.session sent w).2.flatMap propagationOf = (x.session sent w).2.flatMap durabilityOf := by
  induction sent generalizing w with
  | nil => rfl
  | cons s sent ih =>
    obtain ⟨horigin, hvalue⟩ := hsent s mem_cons_self
    have hmirrored := fun request hdecode => (hvalue request hdecode).mirrored
    have hfirst := x.execute_sameFrames hmirrored hqueued horigin s.envs
    have hrest := ih (fun s hs => hsent s (mem_cons_of_mem _ hs))
      (hqueued.executeDetailed x s.ctx s.envs hmirrored)
    simp only [session, flatMap_cons]
    rw [hfirst, hrest]

/-- A server that was just started, with any hash seed. -/
theorem steady_newStore (hash : Bytes → Fin 256) :
    x.Steady ⟨.newStore hash, fun _ => .fresh⟩ where
  plain := rfl
  dead := fun _ _ h => by cases h
  queued := fun _ _ h => by cases h

/-- **Replaying the log of a session reproduces its keyspace**: executed on an empty store, at any
readings of the clock, the durability frames raise no error and lead to the same keyspace, and so do
the propagation frames on a replica. -/
theorem session_replays (y : Executor) (hrt : y.rt = x.rt) (hash hash' : Bytes → Fin 256)
    (clients : Nat → ClientState) (sent : List Submission) (hsent : x.FromClients sent)
    (logged : List (Env × Value))
    (hlogged :
      logged.map Prod.snd =
          (x.session sent ⟨.newStore hash, fun _ => .fresh⟩).2.flatMap durabilityOf ∨
        logged.map Prod.snd =
          (x.session sent ⟨.newStore hash, fun _ => .fresh⟩).2.flatMap propagationOf) :
    ∃ w', y.replay logged ⟨.newStore hash', clients⟩ = some w' ∧
      w'.store.view = (x.session sent ⟨.newStore hash, fun _ => .fresh⟩).1.store.view := by
  have hexplains := x.session_explains
    (fun s hs request hdecode => ((hsent s hs).2 request hdecode).replayable)
    (x.steady_newStore hash)
  have hfresh : Queued Mirrored ⟨.newStore hash, fun _ => .fresh⟩ := fun _ _ h => by cases h
  rw [x.session_sameFrames hsent hfresh, or_self] at hlogged
  rw [← hrt] at hexplains
  have hempty : (newStore hash').view = (newStore hash).view := rfl
  have hcopy : Explains y.rt _ (World.mk (.newStore hash') clients).store.view _ :=
    hempty ▸ hexplains
  exact hcopy.replay rfl (fun _ _ h => by cases h) hlogged

/-- A client's request in the first second. -/
def Submission.of (args : List String) : Submission :=
  ⟨.ofClient 0, fun _ => .frozen firstSecond, commandFrame (args.map ascii)⟩

/-- A session with a command that fails and a transaction, and its log on a second server. -/
theorem session_replays_set :
    ∃ w', Executor.quiet.replay
        [(.frozen firstSecond, propagationFrame ⟨ascii "SET", [ascii "k", ascii "v"]⟩),
          (.frozen firstSecond, propagationFrame ⟨ascii "INCR", [ascii "n"]⟩),
          (.frozen firstSecond, propagationFrame ⟨ascii "RPUSH", [ascii "l", ascii "a"]⟩)]
        .initial = some w' ∧
      w'.store.view = (Executor.quiet.session [.of ["SET", "k", "v"], .of ["INCR", "k"],
        .of ["MULTI"], .of ["INCR", "n"], .of ["RPUSH", "l", "a"], .of ["EXEC"]]
          .initial).1.store.view := by
  refine session_replays quiet quiet rfl (fun _ => 0) (fun _ => 0) _ _ ?_ _ (.inl rfl)
  simp only [FromClients, forall_mem_cons, not_mem_nil, IsEmpty.forall_iff, implies_true, and_true]
  refine ⟨?_, ?_, ?_, ?_, ?_, ?_⟩ <;>
  · refine ⟨rfl, fun request hrequest => ?_⟩
    cases hrequest
    exact ⟨by decide, by decide⟩

end Executor

end Stash
