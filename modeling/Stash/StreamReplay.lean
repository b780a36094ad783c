import Stash.LogReplay

/-!
# Replaying streams

XADD is logged as it was sent, so an automatic ID is made anew when the log is replayed.  It is the
ID of the original run exactly if the replay reads the same millisecond, or if the stream had
entries and the replay still reads no later millisecond than that of the last one
(`nextAutoID_eq_iff`).  A run of XADD commands is reproduced by its log if and only if that holds
for each automatic ID (`stream_log_replays_iff`).
-/

namespace Stash

open DecimalText GoMap Handlers List Function Executor

/-! ## Automatic IDs at a later time -/

variable {now later : Int} {rawID : Bytes} {e : Option Entry}

/-- **An automatic ID is made again** at the same millisecond, or as long as the last entry is not
in the past. -/
theorem nextAutoID_eq_iff {last : Option StreamID} (hle : now ≤ later) :
    nextAutoID last later = nextAutoID last now ↔
      later = now ∨ ∃ lastID, last = some lastID ∧ later ≤ lastID.milliseconds := by
  cases last with
  | none =>
    refine ⟨fun h => .inl (congrArg StreamID.milliseconds h), ?_⟩
    rintro (rfl | ⟨_, h, -⟩)
    · rfl
    · cases h
  | some lastID =>
    constructor
    · intro h
      by_cases hpast : later ≤ lastID.milliseconds
      · exact .inr ⟨lastID, rfl, hpast⟩
      · -- the replay takes the clock, which the original run has to have taken, too
        have hms := congrArg StreamID.milliseconds h
        simp only [nextAutoID] at hms
        rw [if_neg (by omega), if_neg (by omega)] at hms
        split at hms
        · exact absurd hms (by simp only; omega)
        · split at hms
          · exact .inl hms
          · exact .inl hms
    · rintro (rfl | ⟨_, h, hpast⟩)
      · rfl
      · cases h
        have hnow : ∀ t, t ≤ lastID.milliseconds →
            nextAutoID (some lastID) t = ⟨lastID.milliseconds, wrap64 (lastID.sequence + 1)⟩ := by
          intro t ht
          simp only [nextAutoID]
          split
          · rfl
          · rw [if_pos (by omega), show t = lastID.milliseconds by omega]
        rw [hnow later hpast, hnow now (hle.trans hpast)]

/-- The reading of a replay gives the ID that the original reading gave. -/
def SameID (last : Option StreamID) (rawID : Bytes) (now later : Int) : Prop :=
  rawID ≠ ascii "*" ∨ later = now ∨ ∃ lastID, last = some lastID ∧ later ≤ lastID.milliseconds

theorem admitID_later {last : Option StreamID} {id : StreamID}
    (hle : now ≤ later) (h : admitID last rawID now = .ok id) :
    admitID last rawID later = .ok id ↔ SameID last rawID now later := by
  unfold SameID
  by_cases hstar : rawID = ascii "*"
  · subst hstar
    rw [admitID_star] at h ⊢
    cases h
    rw [Except.ok.injEq, nextAutoID_eq_iff hle]
    exact ⟨.inr, fun h => h.resolve_left fun hne => hne rfl⟩
  · rw [admitID_explicit hstar last later now]
    exact ⟨fun _ => .inl hstar, fun _ => h⟩

/-! ## One XADD on a keyspace -/

/-- The entries of the stream of a key. -/
def streamOf : Option Entry → Option (List StreamRecord)
  | none => some []
  | some ⟨.stream entries, _⟩ => some entries
  | some _ => none

/-- The ID of the last entry of a key's stream. -/
def lastOf (e : Option Entry) : Option StreamID :=
  (streamOf e).bind lastStreamID

/-- An entry without a deadline that holds a stream. -/
def streamEntry (entries : List StreamRecord) : Entry :=
  ⟨.stream entries, 0⟩

/-- The key holds nothing, or a stream with entries. -/
def HoldsStream (e : Option Entry) (entries : List StreamRecord) : Prop :=
  e = none ∧ entries = [] ∨ e = some (streamEntry entries) ∧ entries ≠ []

theorem HoldsStream.lastOf {entries : List StreamRecord}
    (h : HoldsStream e entries) : lastOf e = lastStreamID entries := by
  rcases h with ⟨rfl, rfl⟩ | ⟨rfl, -⟩
  · rfl
  · rfl

/-- The entries say what the key holds. -/
theorem HoldsStream.unique {a b : Option Entry} {entries : List StreamRecord}
    (ha : HoldsStream a entries) (hb : HoldsStream b entries) : a = b := by
  rcases ha with ⟨rfl, rfl⟩ | ⟨rfl, hne⟩
  · rcases hb with ⟨rfl, -⟩ | ⟨-, hne⟩
    · rfl
    · exact absurd rfl hne
  · rcases hb with ⟨-, hnil⟩ | ⟨rfl, -⟩
    · exact absurd hnil hne
    · rfl

/-- **What a successful XADD is**: one more entry at the end of the stream. -/
theorem apply_xAdd_iff {values : List Bytes} {current : Option Entry}
    (hcurrent : ∀ e, current = some e → e.expiresAt = 0 ∧ ¬e.value.Empty) :
    (Mutation.xAdd rawID values).apply now current = .ok e ↔
      Payload.PairedValues values ∧ ∃ entries id, HoldsStream current entries ∧
        admitID (lastStreamID entries) rawID now = .ok id ∧
        e = some (streamEntry (entries ++ [⟨id, values⟩])) := by
  simp only [Mutation.apply]
  by_cases hvalues : Payload.PairedValues values
  · rw [if_pos hvalues]
    constructor
    · intro h
      refine ⟨hvalues, ?_⟩
      rcases current with _ | ⟨value, expiresAt⟩
      · obtain ⟨_, hvalue, rfl⟩ := map_ok h
        obtain ⟨_, hadd, rfl⟩ := map_ok hvalue
        obtain ⟨id, hid, rfl⟩ := map_ok hadd
        exact ⟨[], id, .inl ⟨rfl, rfl⟩, hid, rfl⟩
      · obtain ⟨_, hvalue, rfl⟩ := map_ok h
        cases value with
        | stream entries =>
          obtain ⟨rfl, hne⟩ := hcurrent _ rfl
          obtain ⟨_, hadd, rfl⟩ := map_ok hvalue
          obtain ⟨id, hid, rfl⟩ := map_ok hadd
          exact ⟨entries, id, .inr ⟨rfl, hne⟩, hid, rfl⟩
        | string | list | zset | hash | set => cases hvalue
    · rintro ⟨-, entries, id, hholds, hid, rfl⟩
      have hadd : streamAdd entries rawID values now = .ok (entries ++ [⟨id, values⟩]) := by
        rw [streamAdd, hid]
        rfl
      rcases hholds with ⟨rfl, rfl⟩ | ⟨rfl, -⟩
      · change ((streamAdd [] rawID values now).map Logical.stream).map _ = _
        rw [hadd]
        rfl
      · change ((streamAdd entries rawID values now).map Logical.stream).map _ = _
        rw [hadd]
        rfl
  · rw [if_neg hvalues]
    exact ⟨(fun h => by cases h), fun h => absurd h.1 hvalues⟩

/-- What a keyspace holds without deadlines and empty collections. -/
def Tidy (ks : Keyspace) : Prop :=
  ∀ key e, ks key = some e → e.expiresAt = 0 ∧ ¬e.value.Empty

/-- **A later XADD agrees with the original one** if and only if both started from the same keyspace
and it makes the same ID. -/
theorem xAdd_agrees_iff {a b : Keyspace} (ha : Tidy a) (hb : Tidy b) {key : Bytes}
    {values : List Bytes} (hle : now ≤ later)
    (he : (Mutation.xAdd rawID values).apply now (a key) = .ok e) :
    (∃ e', (Mutation.xAdd rawID values).apply later (b key) = .ok e' ∧
        update b key e' = update a key e) ↔ b = a ∧ SameID (lastOf (a key)) rawID now later := by
  obtain ⟨hvalues, entries, id, hholds, hid, rfl⟩ := (apply_xAdd_iff (ha key)).mp he
  constructor
  · rintro ⟨e', he', hupdate⟩
    obtain ⟨-, entries', id', hholds', hid', rfl⟩ := (apply_xAdd_iff (hb key)).mp he'
    have hkey := congrFun hupdate key
    rw [update_self, update_self, Option.some.injEq] at hkey
    have hentries : entries' ++ [(⟨id', values⟩ : StreamRecord)] = entries ++ [⟨id, values⟩] :=
      Logical.stream.inj (congrArg Entry.value hkey)
    obtain ⟨rfl, hrecord⟩ := append_inj' hentries rfl
    obtain rfl : id' = id := congrArg StreamRecord.id (singleton_inj.mp hrecord)
    refine ⟨?_, ?_⟩
    · funext k
      by_cases hk : k = key
      · rw [hk]
        exact hholds'.unique hholds
      · have hother := congrFun hupdate k
        rwa [update_of_ne hk, update_of_ne hk] at hother
    · rw [hholds.lastOf]
      exact (admitID_later hle hid).mp hid'
  · rintro ⟨rfl, hsame⟩
    rw [hholds.lastOf] at hsame
    refine ⟨_, (apply_xAdd_iff (hb key)).mpr ⟨hvalues, entries, id, hholds, ?_, rfl⟩, rfl⟩
    exact (admitID_later hle hid).mpr hsame

/-! ## One XADD on a server -/

/-- Neither a memory limit nor a deadline. -/
structure Calm (s : Store) : Prop where
  plain : s.maxMemoryEnabled = false
  dead : NoDeadlines s.view

theorem Calm.tidy {s : Store} (h : Calm s) : Tidy s.view :=
  fun key e he => ⟨h.dead key e he, Store.view_not_empty he⟩

/-- An XADD that succeeds. -/
theorem Calm.mutate {s : Store} (h : Calm s) {key rawID : Bytes} {values : List Bytes} {env : Env}
    {e : Option Entry} (he : (Mutation.xAdd rawID values).apply (env.now 0) (s.view key) = .ok e) :
    (s.mutate key (.xAdd rawID values) env).2 = .ok [] ∧
      (s.mutate key (.xAdd rawID values) env).1.view = update s.view key e ∧
      Calm (s.mutate key (.xAdd rawID values) env).1 := by
  have hlive : (Mutation.xAdd rawID values).apply (env.now 0)
      (liveEntry (s.view key) (env.now 0)) = .ok e := by rw [h.dead.liveEntry, he]
  obtain ⟨hok, hview⟩ := (mutate_acts h.plain key _ env).of_apply hlive
  have hlimit := (s.mutate_spec key (.xAdd rawID values) env).1
  refine ⟨hok, hview, (Store.enabled_of_eq hlimit).trans h.plain, ?_⟩
  rw [hview]
  intro k entry hentry
  by_cases hk : k = key
  · subst hk
    rw [update_self] at hentry
    rw [hentry] at he
    rcases Mutation.apply_expiresAt he with hset | ⟨c, hc, hkept⟩
    · exact hset
    · exact hkept.trans (h.dead k c hc)
  · rw [update_of_ne hk] at hentry
    exact h.dead k entry hentry

namespace Executor

variable (x : Executor)

/-- The frame an XADD is logged with. -/
def xAddFrame (key rawID : Bytes) (values : List Bytes) : Value :=
  propagationFrame ⟨CommandName.xAdd.text, key :: rawID :: values⟩

/-- **Replaying one XADD** adds to the stream or ends the replay. -/
theorem replay_xAdd {key rawID : Bytes} {values : List Bytes} {now : Instant}
    (hvalid : CommandName.xAdd.validate x.rt (key :: rawID :: values) now = .ok ()) (env : Env)
    {copy : World} (hcopy : Calm copy.store) (rest : List (Env × Value)) :
    match (Mutation.xAdd rawID values).apply (env.now 2) (copy.store.view key) with
    | .ok e => ∃ copy', Calm copy'.store ∧
        copy'.store.view = update copy.store.view key e ∧
        x.replay ((env, xAddFrame key rawID values) :: rest) copy = x.replay rest copy'
    | .error _ => x.replay ((env, xAddFrame key rawID values) :: rest) copy = none := by
  obtain ⟨copy', outcome, hexecute, hstore, houtcome⟩ := @execute_write x .xAdd
    (key :: rawID :: values) (xAddFrame key rawID values) env key (.xAdd rawID values)
    (decode_propagationFrame x.rt .xAdd _) hvalid rfl copy
  cases happly : (Mutation.xAdd rawID values).apply (env.now 2) (copy.store.view key) with
  | ok e =>
    obtain ⟨hok, hview, hcalm⟩ := @Calm.mutate _ hcopy key rawID values (env.after 2) e happly
    rw [hok] at houtcome
    obtain ⟨result, rfl⟩ := houtcome
    rw [← hstore] at hview hcalm
    exact ⟨copy', hcalm, hview, x.replay_cons hexecute rest⟩
  | error err =>
    have hacts := mutate_acts hcopy.plain key (.xAdd rawID values) (env.after 2)
    unfold Acts at hacts
    rw [hcopy.dead.liveEntry, show (Mutation.xAdd rawID values).apply ((env.after 2).now 0)
      (copy.store.view key) = .error err from happly] at hacts
    rw [hacts.1] at houtcome
    obtain ⟨failure, rfl⟩ := houtcome
    simp only [replay, hexecute]

/-- No client is inside a MULTI. -/
def Outside (w : World) : Prop :=
  ∀ id, (w.clients id).inTransaction = false

variable {w : World}

/-- A client outside a MULTI has its XADD run. -/
theorem executeRequest_xAdd {args : List Bytes} {ctx : Context} {envs : Nat → Env}
    (hout : Outside w) {result : ExecuteResult}
    (hok : (x.executeRequest ctx envs ⟨CommandName.xAdd.text, args⟩ w).2 = .ok result) :
    StoreRun.Valid x ⟨envs 0, .xAdd, args⟩ ∧
      x.executeRequest ctx envs ⟨CommandName.xAdd.text, args⟩ w =
        x.runCommand ctx (envs 0) .xAdd ⟨CommandName.xAdd.text, args⟩ w := by
  have hqueue : x.maybeQueueRequest ctx ⟨CommandName.xAdd.text, args⟩ ((envs 0).clock 0) w =
      none := by
    unfold maybeQueueRequest
    split
    · rfl
    · rename_i state hstate
      rw [World.clientState, Option.map_eq_some_iff] at hstate
      obtain ⟨id, -, rfl⟩ := hstate
      rw [if_neg (by rw [hout id]; decide)]
  simp only [executeRequest, hqueue] at hok ⊢
  cases hcontext : x.validateContext ctx ⟨CommandName.xAdd.text, args⟩ w with
  | error err =>
    rw [hcontext] at hok
    cases hok
  | ok _ =>
    rw [hcontext] at hok
    simp only at hok ⊢
    cases hlookup : x.lookup ⟨CommandName.xAdd.text, args⟩ ((envs 0).clock 0) with
    | error err =>
      rw [hlookup] at hok
      cases hok
    | ok c =>
      obtain ⟨hrequest, hvalid⟩ := x.lookup_ok hlookup
      obtain rfl : CommandName.xAdd = c := CommandName.text_inj (congrArg Request.name hrequest)
      exact ⟨hvalid, rfl⟩

/-- **What a successful XADD of a client did**: it added to a stream, and it logged what was sent. -/
theorem execute_xAdd {value : Value} {args : List Bytes}
    (hdecode : decodeRequest x.rt value = .ok ⟨CommandName.xAdd.text, args⟩) {ctx : Context}
    {envs : Nat → Env} (hout : Outside w) (hw : Calm w.store) {result : ExecuteResult}
    (hok : (x.executeDetailed ctx envs value w).2 = .ok result) :
    ∃ key rawID values e, args = key :: rawID :: values ∧
      (∃ now, CommandName.xAdd.validate x.rt args now = .ok ()) ∧
      (Mutation.xAdd rawID values).apply ((envs 0).now 2) (w.store.view key) = .ok e ∧
      (x.executeDetailed ctx envs value w).1.store.view =
        update w.store.view key e ∧
      Calm (x.executeDetailed ctx envs value w).1.store ∧
      Outside (x.executeDetailed ctx envs value w).1 ∧
      result.durability = [xAddFrame key rawID values] := by
  simp only [executeDetailed, hdecode] at hok ⊢
  obtain ⟨hvalid, hrun⟩ := x.executeRequest_xAdd hout hok
  rw [hrun] at hok ⊢
  obtain ⟨hstore, houtcome⟩ := @runCommand_eq x ctx (envs 0) .xAdd ⟨CommandName.xAdd.text, args⟩
    _ rfl w
  have houtside : Outside (x.runCommand ctx (envs 0) .xAdd ⟨CommandName.xAdd.text, args⟩ w).1 := by
    intro id
    simp only [runCommand, storeHandler]
    split
    · exact hout id
    · simp only [World.touchWatchKeys]
      split
      · exact hout id
      · exact hout id
  have heffect := storeHandler_effect (show storeHandler x.rt ctx.inline .xAdd = some _ from rfl)
    w.store args (envs 0)
  rcases args with _ | ⟨key, _ | ⟨rawID, values⟩⟩
  · cases hvalid
  · cases hvalid
  · obtain ⟨hmutated, hanswer⟩ := heffect
    rw [houtcome] at hok
    cases hresult : (w.store.mutate key (.xAdd rawID values) ((envs 0).after 2)).2 with
    | error err =>
      rw [hresult] at hanswer
      rw [show _ = Except.error _ from hanswer] at hok
      cases hok
    | ok evicted =>
      rw [hresult] at hanswer
      obtain ⟨reply, hreply, hevicted, -⟩ := hanswer
      obtain ⟨e, happly, rfl, -⟩ :=
        (mutate_acts hw.plain key (.xAdd rawID values) ((envs 0).after 2)).entry hresult
      -- no key has a deadline, so the stream the handler finds is the one in the keyspace
      rw [hw.dead.liveEntry] at happly
      obtain ⟨-, hview, hcalm⟩ := hw.mutate happly
      rw [← hmutated, ← hstore] at hview hcalm
      rw [hreply] at hok
      cases hok
      refine ⟨key, rawID, values, e, rfl, ⟨_, hvalid⟩, happly, hview, hcalm, houtside, ?_⟩
      simp only [durabilityFrames, hevicted]
      rfl

/-! ## Runs of XADD commands -/

/-- Every request of the session is an XADD that succeeds. -/
def AddsToStreams (sent : List Submission) (w : World) : Prop :=
  (∀ s ∈ sent, ∃ args, decodeRequest x.rt s.value = .ok ⟨CommandName.xAdd.text, args⟩) ∧
    ∀ outcome ∈ (x.session sent w).2, ∃ result, outcome = .ok result

/-- **Each automatic ID is made again by the replay**: in the state before each XADD of the session,
its ID is explicit, or the replay reads the same millisecond, or the stream has entries and the
replay reads no later millisecond than that of the last one. -/
def SameIDs : List Submission → List Env → World → Prop
  | s :: sent, env :: envs, w =>
    (∀ key rawID values,
      decodeRequest x.rt s.value = .ok ⟨CommandName.xAdd.text, key :: rawID :: values⟩ →
        SameID (lastOf (w.store.view key)) rawID ((s.envs 0).now 2) (env.now 2)) ∧
      SameIDs sent envs (x.executeDetailed s.ctx s.envs s.value w).1
  | _, _, _ => True

/-- A replay on a copy that may differ from the start. -/
theorem replay_streams_iff (y : Executor) (hrt : y.rt = x.rt) {sent : List Submission}
    (hout : Outside w) (hw : Calm w.store) (hadds : x.AddsToStreams sent w)
    {logged : List (Env × Value)}
    (hlogged : logged.map Prod.snd = (x.session sent w).2.flatMap durabilityOf)
    (hlater : ∀ s ∈ sent, ∀ p ∈ logged, ∀ i j, (s.envs 0).now i ≤ p.1.now j)
    {copy : World} (hcopy : Calm copy.store) :
    (∃ w', y.replay logged copy = some w' ∧
        w'.store.view = (x.session sent w).1.store.view) ↔
      copy.store.view = w.store.view ∧ x.SameIDs sent (logged.map Prod.fst) w := by
  induction sent generalizing w logged copy with
  | nil =>
    obtain rfl := map_eq_nil_iff.mp hlogged
    constructor
    · rintro ⟨w', hw', hview⟩
      cases hw'
      exact ⟨hview, trivial⟩
    · rintro ⟨hview, -⟩
      exact ⟨copy, rfl, hview⟩
  | cons s sent ih =>
    obtain ⟨args, hdecode⟩ := hadds.1 s mem_cons_self
    obtain ⟨result, hok⟩ : ∃ result, (x.executeDetailed s.ctx s.envs s.value w).2 = .ok result :=
      hadds.2 _ mem_cons_self
    obtain ⟨key, rawID, values, e, rfl, ⟨now, hvalid⟩, happly, hview, hcalm, hout', hframes⟩ :=
      x.execute_xAdd hdecode hout hw hok
    -- the first frame of the log is that of the first XADD
    have hfirst : (x.session (s :: sent) w).2.flatMap durabilityOf = xAddFrame key rawID values ::
        (x.session sent (x.executeDetailed s.ctx s.envs s.value w).1).2.flatMap durabilityOf := by
      simp only [session, flatMap_cons, hok, durabilityOf, hframes]
      rfl
    rw [hfirst] at hlogged
    obtain ⟨⟨env, frame⟩, rest, rfl, rfl, hrest⟩ := map_eq_cons_iff.mp hlogged
    have hle : (s.envs 0).now 2 ≤ env.now 2 :=
      hlater s mem_cons_self _ mem_cons_self 2 2
    have hagrees := xAdd_agrees_iff hw.tidy hcopy.tidy hle happly
    have hsame : x.SameIDs (s :: sent) (env :: rest.map Prod.fst) w ↔
        SameID (lastOf (w.store.view key)) rawID ((s.envs 0).now 2) (env.now 2) ∧
          x.SameIDs sent (rest.map Prod.fst) (x.executeDetailed s.ctx s.envs s.value w).1 := by
      refine and_congr_left fun _ => ⟨fun h => h key rawID values hdecode, ?_⟩
      intro h key' rawID' values' hdecode'
      rw [hdecode] at hdecode'
      cases hdecode'
      exact h
    have ih' := fun copy' hcopy' => @ih (x.executeDetailed s.ctx s.envs s.value w).1 hout' hcalm
      ⟨fun s' hs' => hadds.1 s' (mem_cons_of_mem _ hs'),
        fun o ho => hadds.2 o (mem_cons_of_mem _ ho)⟩ rest hrest
      (fun s' hs' p hp => hlater s' (mem_cons_of_mem _ hs') p (mem_cons_of_mem _ hp))
      copy' hcopy'
    have hreplay := y.replay_xAdd (hrt ▸ hvalid) env hcopy rest
    change (∃ w' : World, _ = some w' ∧ w'.store.view =
      (x.session sent (x.executeDetailed s.ctx s.envs s.value w).1).1.store.view) ↔
        _ ∧ x.SameIDs (s :: sent) (env :: rest.map Prod.fst) w
    rw [hsame, ← and_assoc, ← hagrees]
    split at hreplay
    · rename_i e' happly'
      obtain ⟨copy', hcopy', hview', hreplay⟩ := hreplay
      rw [hreplay, ih' copy' hcopy', hview, hview']
      refine and_congr_left fun _ => ⟨fun h => ⟨e', happly', h⟩, ?_⟩
      rintro ⟨e'', happly'', h⟩
      rw [happly'] at happly''
      cases happly''
      exact h
    · rename_i err happly'
      rw [hreplay]
      constructor
      · rintro ⟨w', hw', -⟩
        cases hw'
      · rintro ⟨⟨e'', happly'', -⟩, -⟩
        rw [happly'] at happly''
        cases happly''

/-- **A run of XADD commands is reproduced by its log** if and only if each automatic ID is made
again: started on an empty server and replayed on an empty store at later readings, the log raises
no error and gives every stream the same entries. -/
theorem stream_log_replays_iff (y : Executor) (hrt : y.rt = x.rt) (hash hash' : Bytes → Fin 256)
    (clients : Nat → ClientState) (sent : List Submission)
    (hadds : x.AddsToStreams sent ⟨.newStore hash, fun _ => .fresh⟩) (logged : List (Env × Value))
    (hlogged : logged.map Prod.snd =
      (x.session sent ⟨.newStore hash, fun _ => .fresh⟩).2.flatMap durabilityOf)
    (hlater : ∀ s ∈ sent, ∀ p ∈ logged, ∀ i j, (s.envs 0).now i ≤ p.1.now j) :
    (∃ w', y.replay logged ⟨.newStore hash', clients⟩ = some w' ∧
        w'.store.view = (x.session sent ⟨.newStore hash, fun _ => .fresh⟩).1.store.view) ↔
      x.SameIDs sent (logged.map Prod.fst) ⟨.newStore hash, fun _ => .fresh⟩ := by
  have hcalm : ∀ h : Bytes → Fin 256, Calm (Store.newStore h) :=
    fun _ => ⟨rfl, fun _ _ h => by cases h⟩
  rw [x.replay_streams_iff y hrt (fun _ => rfl) (hcalm hash) hadds hlogged hlater (hcalm hash')]
  exact and_iff_right rfl

/-- A client's XADD in the first second. -/
def xAddSubmission (rawID : Bytes) : Submission :=
  ⟨.ofClient 0, fun _ => .frozen firstSecond,
    commandFrame [ascii "XADD", ascii "s", rawID, ascii "f", ascii "v"]⟩

/-- What was logged of it, executed a second later. -/
def xAddLogged (rawID : Bytes) : Env × Value :=
  (.frozen (.ofMillis 2000 (by decide)), xAddFrame (ascii "s") rawID [ascii "f", ascii "v"])

/-- An automatic ID between two explicit ones above the clock is replayed. -/
theorem stream_log_replays_explicit :
    ∃ w', quiet.replay [xAddLogged (ascii "5000-0"), xAddLogged (ascii "*"),
          xAddLogged (ascii "6000-0")] .initial = some w' ∧
      w'.store.view = (quiet.session [xAddSubmission (ascii "5000-0"), xAddSubmission (ascii "*"),
        xAddSubmission (ascii "6000-0")] .initial).1.store.view := by
  have hmem : ∀ {α : Type} {P : α → Prop} {a b c : α}, P a → P b → P c → ∀ x ∈ [a, b, c], P x := by
    intro α P a b c ha hb hc
    simp [ha, hb, hc]
  refine (stream_log_replays_iff quiet quiet rfl (fun _ => 0) (fun _ => 0) _ _ ⟨?_, ?_⟩ _ rfl
    ?_).mpr ⟨fun _ _ _ h => ?_, fun _ _ _ h => ?_, fun _ _ _ h => ?_, trivial⟩
  · exact hmem ⟨_, rfl⟩ ⟨_, rfl⟩ ⟨_, rfl⟩
  · exact hmem ⟨_, rfl⟩ ⟨_, rfl⟩ ⟨_, rfl⟩
  · have hlater : firstSecond.millis ≤ (Instant.ofMillis 2000 (by decide)).millis := by decide
    exact hmem (hmem (fun _ _ => hlater) (fun _ _ => hlater) fun _ _ => hlater)
      (hmem (fun _ _ => hlater) (fun _ _ => hlater) fun _ _ => hlater)
      (hmem (fun _ _ => hlater) (fun _ _ => hlater) fun _ _ => hlater)
  · cases h
    exact .inl (by decide)
  · cases h
    exact .inr (.inr ⟨⟨5000, 0⟩, rfl, by decide⟩)
  · cases h
    exact .inl (by decide)

/-- An automatic ID made a second later is above the explicit one that followed it, which is then
refused: the replay of the log ends with an error. -/
theorem automatic_id_not_replayed :
    quiet.AddsToStreams [xAddSubmission (ascii "*"), xAddSubmission (ascii "1500-0")]
        .initial ∧
      [xAddLogged (ascii "*"), xAddLogged (ascii "1500-0")].map Prod.snd =
        (quiet.session [xAddSubmission (ascii "*"), xAddSubmission (ascii "1500-0")]
          .initial).2.flatMap durabilityOf ∧
      quiet.replay [xAddLogged (ascii "*"), xAddLogged (ascii "1500-0")] .initial =
        none := by
  refine ⟨⟨fun s hs => ?_, fun outcome h => ?_⟩, rfl, rfl⟩
  · rcases mem_pair.mp hs with rfl | rfl
    · exact ⟨_, rfl⟩
    · exact ⟨_, rfl⟩
  · rcases mem_pair.mp h with rfl | rfl
    · exact ⟨_, rfl⟩
    · exact ⟨_, rfl⟩

end Executor

end Stash
