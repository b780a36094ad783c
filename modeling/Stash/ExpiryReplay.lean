import Stash.LogReplay

/-!
# Replaying a key with a deadline

SET is logged with its absolute deadline, but the commands that change the string in place (INCR,
SETBIT, PFADD) are logged as they were sent.  Replayed while the deadline has not passed, they find
the string and keep its deadline (`Kept.track`).  Replayed after it, the first of them finds nothing
and makes a new string that never expires (`Kept.resurrects`).  So the key stays dead if and only if
it was not changed after its SET (`expired_key_stays_dead_iff`).
-/

namespace Stash

open DecimalText GoMap Handlers List Function Executor Store

variable {now t : Int} {key k : Bytes} {a b : Keyspace} {e : Entry} {s : Store} {m : Mutation}
    {r : Option Entry} {env : Env}

theorem not_expired_before {expiresAt later : Int} (h : now ≤ later)
    (hlive : isExpired expiresAt later = false) : isExpired expiresAt now = false := by
  rw [Bool.eq_false_iff] at *
  exact fun hexpired => hlive (isExpired_mono h hexpired)

/-! ## Commands about other keys -/

/-- What `key` held is still there, or it was past its deadline at `t`. -/
def FadesAt (t : Int) (key : Bytes) (before after : Keyspace) : Prop :=
  after key = before key ∨
    after key = none ∧ ∃ e, before key = some e ∧ isExpired e.expiresAt t = true

theorem FadesAt.trans {c : Keyspace} (h : FadesAt t key a b)
    (h' : FadesAt t key b c) : FadesAt t key a c := by
  rcases h' with hc | ⟨hc, e, he, hexpired⟩
  · rcases h with hb | ⟨hb, he⟩
    · exact .inl (hc.trans hb)
    · exact .inr ⟨hc.trans hb, he⟩
  · rcases h with hb | ⟨hb, -⟩
    · exact .inr ⟨hc, e, hb ▸ he, hexpired⟩
    · rw [hb] at he
      cases he

theorem FadesAt.eq (h : FadesAt t key a b)
    (he : a key = some e) (hlive : isExpired e.expiresAt t = false) : b key = some e := by
  rcases h with hb | ⟨-, e', he', hexpired⟩
  · exact hb.trans he
  · rw [he] at he'
    cases he'
    rw [hlive] at hexpired
    cases hexpired

theorem Fades.at (h : Fades t a b) (key : Bytes) : FadesAt t key a b :=
  h key

/-- **No command changes the limit.** -/
theorem StoreRun.maxMemory_handle (x : Executor) (inline : Bool) (r : StoreRun) (s : Store) :
    (r.handle x inline s).1.maxMemory = s.maxMemory := by
  unfold handle
  cases hhandler : storeHandler x.rt inline r.command with
  | none => rfl
  | some handler =>
    have heffect := storeHandler_effect hhandler s r.args r.env
    cases hkind : r.command.effect x.rt r.args (r.env.clock 1) with
    | refuse =>
      rw [hkind] at heffect
      exact congrArg maxMemory heffect.1
    | read =>
      rw [hkind] at heffect
      exact heffect.maxMemory
    | write key m =>
      rw [hkind] at heffect
      exact (congrArg maxMemory heffect.1).trans (s.mutate_spec key m _).1
    | delete keys =>
      rw [hkind] at heffect
      exact (congrArg maxMemory heffect.1).trans (s.deleteMany_spec keys _).2
    | take key =>
      rw [hkind] at heffect
      exact (congrArg maxMemory heffect.1).trans (s.mutate_spec key (.pop true) _).1

/-- **A command about other keys leaves a key alone**, up to its deadline. -/
theorem StoreRun.fadesAt_handle (x : Executor) (inline : Bool) {r : StoreRun}
    (hplain : s.maxMemoryEnabled = false) (hk : k ∉ r.request.keys)
    (hdone : r.env.DoneBy t) : FadesAt t k s.view (r.handle x inline s).1.view := by
  have hmutate : ∀ key m, key ≠ k →
      FadesAt t k s.view (s.mutate key m (r.env.after 2)).1.view := by
    intro key m hne
    have hacts := mutate_acts hplain key m (r.env.after 2)
    cases hresult : (s.mutate key m (r.env.after 2)).2 with
    | error err => exact ((hacts.fades hresult).mono (hdone 2)).at k
    | ok evicted =>
      obtain ⟨e, -, -, hview⟩ := hacts.entry hresult
      rw [hview]
      exact .inl (update_of_ne hne.symm _ _)
  unfold handle
  cases hhandler : storeHandler x.rt inline r.command with
  | none => exact .inl rfl
  | some handler =>
    have heffect := storeHandler_effect hhandler s r.args r.env
    have hfits := effect_fits x.rt r.command r.args (r.env.clock 1)
    simp only
    cases hkind : r.command.effect x.rt r.args (r.env.clock 1) with
    | refuse =>
      rw [hkind] at heffect
      rw [heffect.1]
      exact .inl rfl
    | read =>
      rw [hkind] at heffect
      exact (heffect.fades t hdone).at k
    | write key m =>
      have hof := effect_write hkind
      rw [hkind] at heffect
      rw [heffect.1]
      refine hmutate key m fun hkey => hk ?_
      rw [request, Request.keys_of_ne_del hof.ne_del, hof.first, hkey]
      exact mem_singleton_self k
    | delete keys =>
      rw [hkind] at heffect hfits
      obtain ⟨hc, hargs, -⟩ := hfits
      have hnot : k ∉ keys := by
        rw [request, hc, hargs] at hk
        exact hk
      rw [heffect.1]
      refine .inl ?_
      simp only [view, (s.deleteMany_spec keys (r.env.after 2)).1 k, if_neg hnot]
    | take key =>
      rw [hkind] at heffect hfits
      obtain ⟨hc, hargs⟩ := hfits
      rw [heffect.1, pop_eq_mutate]
      refine hmutate key (.pop true) fun hkey => hk ?_
      rw [request, hc, Request.keys_of_ne_del (by decide), hargs, hkey]
      exact mem_singleton_self k

namespace Executor

variable (x : Executor)

/-! ## Executing frames -/

/-- Execute frames in order; an error does not end it. -/
def executeAll : List (Env × Value) → World → World
  | [], w => w
  | (env, frame) :: frames, w =>
    executeAll frames (x.executeDetailed .replay (fun _ => env) frame w).1

theorem executeAll_append (frames frames' : List (Env × Value)) (w : World) :
    x.executeAll (frames ++ frames') w = x.executeAll frames' (x.executeAll frames w) := by
  induction frames generalizing w with
  | nil => rfl
  | cons frame frames ih => exact ih _

variable {w : World}

theorem executeAll_of_replay {frames : List (Env × Value)} {w' : World}
    (h : x.replay frames w = some w') : x.executeAll frames w = w' := by
  induction frames generalizing w with
  | nil => exact Option.some.inj h
  | cons frame frames ih =>
    rw [replay] at h
    split at h
    · rename_i w₁ result hexecute
      rw [executeAll, hexecute]
      exact ih h
    · cases h

section

variable (env : Env) (frame : Value) (w : World)

theorem execute_replay_runs :
    (x.executeDetailed .replay (fun _ => env) frame w).1.store = w.store ∨
      ∃ r : StoreRun, r.env = env ∧ decodeRequest x.rt frame = .ok r.request ∧
        (x.executeDetailed .replay (fun _ => env) frame w).1.store =
          (r.handle x Context.replay.inline w.store).1 := by
  unfold executeDetailed
  split
  · exact .inl rfl
  · rename_i request hdecode
    obtain ⟨runs, hruns, hfrom⟩ := x.executeRequest_runs .replay (fun _ => env) request w
    rcases hfrom with hdirect | ⟨-, -, hqueue⟩
    · rcases hdirect with rfl | ⟨r, rfl, henv, haccepted, -⟩
      · exact .inl hruns.store
      · exact .inr ⟨r, henv, by rw [haccepted.1]; exact hdecode, hruns.store⟩
    · -- there is no queue
      cases runs with
      | nil => exact .inl hruns.store
      | cons r runs =>
        obtain ⟨state, hstate, -⟩ := hqueue r mem_cons_self
        cases hstate

theorem maxMemory_execute :
    (x.executeDetailed .replay (fun _ => env) frame w).1.store.maxMemory = w.store.maxMemory := by
  rcases x.execute_replay_runs env frame w with hsame | ⟨r, -, -, hstore⟩
  · rw [hsame]
  · rw [hstore]
    exact r.maxMemory_handle x _ _

end

theorem maxMemory_executeAll (frames : List (Env × Value)) (w : World) :
    (x.executeAll frames w).store.maxMemory = w.store.maxMemory := by
  induction frames generalizing w with
  | nil => rfl
  | cons frame frames ih => exact (ih _).trans (x.maxMemory_execute frame.1 frame.2 w)

/-- **A frame about other keys leaves a key alone**, up to its deadline. -/
theorem fadesAt_execute {frame : Value} {k : Bytes} (hk : k ∉ frameKeys x.rt frame)
    (hplain : w.store.maxMemoryEnabled = false) {env : Env} {t : Int} (hdone : env.DoneBy t) :
    FadesAt t k w.store.view (x.executeDetailed .replay (fun _ => env) frame w).1.store.view := by
  rcases x.execute_replay_runs env frame w with hsame | ⟨r, rfl, hdecode, hstore⟩
  · rw [hsame]
    exact .inl rfl
  · rw [hstore]
    refine r.fadesAt_handle x _ hplain ?_ hdone
    rw [frameKeys, hdecode] at hk
    exact hk

theorem fadesAt_executeAll {frames : List (Env × Value)} {k : Bytes}
    (hk : ∀ p ∈ frames, k ∉ frameKeys x.rt p.2)
    (hplain : w.store.maxMemoryEnabled = false) {t : Int} (hdone : ∀ p ∈ frames, p.1.DoneBy t) :
    FadesAt t k w.store.view (x.executeAll frames w).store.view := by
  induction frames generalizing w with
  | nil => exact .inl rfl
  | cons frame frames ih =>
    have hfirst := x.fadesAt_execute (hk frame mem_cons_self) hplain
      (hdone frame mem_cons_self)
    refine hfirst.trans (ih (fun p hp => hk p (mem_cons_of_mem _ hp)) ?_
      fun p hp => hdone p (mem_cons_of_mem _ hp))
    exact (enabled_of_eq (x.maxMemory_execute _ _ w)).trans hplain

end Executor

/-! ## Changing a string in place -/

/-- INCR, SETBIT and PFADD. -/
def Mutation.InPlace : Mutation → Prop
  | increment | setBit _ _ | pfAdd _ => True
  | _ => False

section

variable (h : m.InPlace)
include h

/-- An in-place change refuses its arguments, or it changes what it finds and otherwise makes a new
value. -/
theorem Mutation.InPlace.apply :
    (∃ err, ∀ now current, m.apply now current = .error err) ∨
      ∃ fresh change, ∀ now current, m.apply now current = changeEntry current (.ok fresh) change := by
  cases m with
  | increment | pfAdd => exact .inr ⟨_, _, fun _ _ => rfl⟩
  | setBit offset bit =>
    cases hvalid : validateBitmapArguments offset bit with
    | error err =>
      refine .inl ⟨err, fun now current => ?_⟩
      simp only [Mutation.apply, hvalid]
      rfl
    | ok _ =>
      refine .inr ⟨.string (setBitPayload [] offset bit),
        onString fun data => .ok (setBitPayload data offset bit), fun now current => ?_⟩
      simp only [Mutation.apply, hvalid]
      rfl
  | _ => cases h

theorem Mutation.InPlace.keeps (happly : m.apply now (some e) = .ok r) :
    ∃ e', r = some e' ∧ e'.expiresAt = e.expiresAt := by
  rcases h.apply with ⟨err, herr⟩ | ⟨fresh, change, hchange⟩
  · rw [herr] at happly
    cases happly
  · rw [hchange] at happly
    obtain ⟨value, -, rfl⟩ := map_ok happly
    exact ⟨_, rfl, rfl⟩

theorem Mutation.InPlace.makes {current : Option Entry}
    (happly : m.apply now current = .ok r) (now' : Int) :
    ∃ e', m.apply now' none = .ok (some e') ∧ e'.expiresAt = 0 := by
  rcases h.apply with ⟨err, herr⟩ | ⟨fresh, change, hchange⟩
  · rw [herr] at happly
    cases happly
  · rw [hchange]
    exact ⟨_, rfl, rfl⟩

theorem Mutation.InPlace.timeless : m.Timeless := by
  cases m with
  | increment | setBit | pfAdd => trivial
  | _ => cases h

end

/-- The commands that change a string in place. -/
def CommandName.inPlace : CommandName → Bool
  | incr | setBit | pfAdd => true
  | _ => false

theorem inPlace_effect {rt : Runtime} {c : CommandName} (hc : c.inPlace = true) {args : List Bytes}
    {now : Instant} (h : c.effect rt args now = .write key m) : m.InPlace := by
  cases c with
  | incr | pfAdd =>
    simp only [CommandName.effect] at h
    split at h
    · cases h
      trivial
    · cases h
  | setBit =>
    simp only [CommandName.effect] at h
    split at h
    · obtain ⟨-, p, -, rfl⟩ := ofParsed_write h
      trivial
    · cases h
  | _ => cases hc

/-- A successful command that is logged wrote its key, which it did not evict. -/
theorem StoreRun.wrote_of_ok {x : Executor} {inline : Bool} {r : StoreRun}
    (hdurable : r.command.durable = true) (hdel : r.command ≠ .del) {reply : Reply}
    (hok : (r.handle x inline s).2 = .ok reply) :
    ∃ key m evicted, r.command.effect x.rt r.args (r.env.clock 1) = .write key m ∧
      (s.mutate key m (r.env.after 2)).2 = .ok evicted ∧
      (r.handle x inline s).1 = (s.mutate key m (r.env.after 2)).1 ∧
      r.frames (r.handle x inline s).2 =
        commandFrameOf r.command r.request m.deadline ::
          evictionFrames evicted ∧ ((r.handle x inline s).1.view key ≠ none → key ∉ evicted) := by
  have hblpop : r.command ≠ .blPop := by
    intro hc
    rw [hc] at hdurable
    cases hdurable
  cases r.handle_outcome x inline hblpop s with
  | quiet _ _ frames =>
    rw [hok] at frames
    simp only [StoreRun.frames, durabilityFrames, hdurable] at frames
    cases frames
  | failed _ _ _ _ _ _ answer =>
    rw [hok] at answer
    cases answer
  | wrote key m evicted effect ok store frames =>
    refine ⟨key, m, evicted, effect, ok, store, frames, fun hview hmem => hview ?_⟩
    rw [store, view, (s.mutate_spec key m (r.env.after 2)).2 evicted ok key hmem]
    rfl
  | deleted keys request _ _ _ =>
    exact absurd (CommandName.text_inj (congrArg Request.name request)) hdel

theorem not_mem_evictionFrames (rt : Runtime) {evicted : List Bytes}
    (hk : k ∉ evicted) : ∀ frame ∈ evictionFrames evicted, k ∉ frameKeys rt frame := by
  intro frame hframe
  unfold evictionFrames at hframe
  split at hframe
  · cases hframe
  · obtain rfl := mem_singleton.mp hframe
    simp only [frameKeys, decode_deleteFrame]
    exact hk

/-! ### On a store -/

section

variable (hplain : s.maxMemoryEnabled = false)
include hplain

/-- An in-place change of a live string keeps its deadline, whether or not it succeeds. -/
theorem Store.mutate_alive (hm : m.InPlace)
    (he : s.view k = some e) (hlive : isExpired e.expiresAt (env.now 0) = false) :
    ∃ e', (s.mutate k m env).1.view k = some e' ∧ e'.expiresAt = e.expiresAt := by
  have hacts := mutate_acts hplain k m env
  have hentry : liveEntry (s.view k) (env.now 0) = some e := by
    rw [he, liveEntry, Option.filter_some, hlive]
    rfl
  cases hresult : (s.mutate k m env).2 with
  | error err => exact ⟨e, ((hacts.fades hresult).at k).eq he hlive, rfl⟩
  | ok evicted =>
    obtain ⟨r, happly, -, hview⟩ := hacts.entry hresult
    rw [hentry] at happly
    obtain ⟨e', rfl, hkept⟩ := hm.keeps happly
    exact ⟨e', by rw [hview, update_self], hkept⟩

/-- Where the change succeeded before, it succeeds again on the same live string. -/
theorem Store.mutate_again (hm : m.InPlace) (he : s.view k = some e)
    (hlive : isExpired e.expiresAt (env.now 0) = false)
    (happly : m.apply now (some e) = .ok r) : (s.mutate k m env).1.view k = r := by
  have hentry : liveEntry (s.view k) (env.now 0) = some e := by
    rw [he, liveEntry, Option.filter_some, hlive]
    rfl
  rw [m.apply_timeless hm.timeless now (env.now 0), ← hentry] at happly
  rw [((mutate_acts hplain k m env).of_apply happly).2, update_self]

/-- Where the change succeeded before, it makes a new string in place of an expired one. -/
theorem Store.mutate_fresh (hm : m.InPlace)
    (hdead : liveEntry (s.view k) (env.now 0) = none) {current : Option Entry}
    (happly : m.apply now current = .ok r) :
    ∃ e', (s.mutate k m env).1.view k = some e' ∧ e'.expiresAt = 0 := by
  obtain ⟨e', hfresh, hzero⟩ := hm.makes happly (env.now 0)
  rw [← hdead] at hfresh
  refine ⟨e', ?_, hzero⟩
  rw [((mutate_acts hplain k m env).of_apply hfresh).2, update_self]

end

/-! ## Runs after the SET -/

section Runs

variable (x : Executor) (inline : Bool) (k : Bytes)

/-- The command leaves the key alone: nothing it logs is about the key, and the key is as before or
was dropped past its deadline. -/
structure Passive (r : StoreRun) (s : Store) : Prop where
  frames : ∀ frame ∈ r.frames (r.handle x inline s).2, k ∉ frameKeys x.rt frame
  view : ∃ i, FadesAt (r.env.now i) k s.view (r.handle x inline s).1.view

/-- The command is an INCR, SETBIT or PFADD of the key that succeeds while the key is live. -/
structure Modifies (r : StoreRun) (s : Store) : Prop where
  inPlace : r.command.inPlace = true
  key : r.args.take 1 = [k]
  valid : r.Valid x
  live : (liveEntry (s.view k) (r.env.now 2)).isSome = true
  succeeds : ∃ reply, (r.handle x inline s).2 = .ok reply

/-- **The key is kept**: the commands leave it alone or change it in place while it is live.  The
entries are those the key held before the first command and after the last change; the flag says
whether it was changed at all. -/
inductive Kept : Store → Entry → List StoreRun → Entry → Bool → Prop where
  | nil (s : Store) (e : Entry) : Kept s e [] e false
  | passive {s : Store} {e last : Entry} {r : StoreRun} {runs : List StoreRun} {modified : Bool}
    (first : Passive x inline k r s)
    (rest : Kept (r.handle x inline s).1 e runs last modified) : Kept s e (r :: runs) last modified
  | modifies {s : Store} {e e₁ last : Entry} {r : StoreRun} {runs : List StoreRun}
    {modified : Bool} (first : Modifies x inline k r s)
    (held : (r.handle x inline s).1.view k = some e₁)
    (rest : Kept (r.handle x inline s).1 e₁ runs last modified) : Kept s e (r :: runs) last true

variable {x inline k}

variable {s : Store} {r : StoreRun} {runs : List StoreRun} {copy : World} {t : Int}
    {e last : Entry}

/-- What a change in place was and how it is logged. -/
theorem Modifies.logged (h : Modifies x inline k r s) {e₁ : Entry}
    (held : (r.handle x inline s).1.view k = some e₁) :
    ∃ m evicted, m.InPlace ∧ (∀ now, r.command.validate x.rt r.args now = .ok ()) ∧
      (∀ now, r.command.effect x.rt r.args now = .write k m) ∧
      r.frames (r.handle x inline s).2 =
        commandFrameOf r.command r.request m.deadline ::
          evictionFrames evicted ∧
      loggedArgs r.command r.args m.deadline = r.args ∧
      k ∉ evicted ∧ ∃ e, s.view k = some e ∧ m.apply 0 (some e) = .ok (some e₁) := by
  obtain ⟨reply, hok⟩ := h.succeeds
  have hcommand := h.inPlace
  have hset : r.command ≠ .set := fun hc => by rw [hc] at hcommand; cases hcommand
  have hdel : r.command ≠ .del := fun hc => by rw [hc] at hcommand; cases hcommand
  have hdurable : r.command.durable = true := by
    cases hc : r.command with
    | incr | setBit | pfAdd => rfl
    | _ =>
      rw [hc] at hcommand
      cases hcommand
  obtain ⟨key, m, evicted, heffect, hmutated, hstore, hframes, hevicted⟩ :=
    StoreRun.wrote_of_ok hdurable hdel hok
  have hfirst := (effect_write heffect).first
  obtain rfl : key = k := by
    rw [h.key] at hfirst
    exact (singleton_inj.mp hfirst).symm
  have hm := inPlace_effect hcommand heffect
  obtain ⟨e, he⟩ := Option.isSome_iff_exists.mp h.live
  have hentry := mutate_entry hmutated
  rw [← hstore, held, show (r.env.after 2).now 0 = r.env.now 2 from rfl, he,
    m.apply_timeless hm.timeless _ 0] at hentry
  refine ⟨m, evicted, hm, fun now => ?_, fun now => ?_, hframes,
    loggedArgs_of_ne_set hset r.args m.deadline, hevicted (by rw [held]; simp), e,
    (Option.filter_eq_some_iff.mp he).1, hentry⟩
  · rw [validate_of_ne_set x.rt hset r.args now (r.env.clock 0)]
    exact h.valid
  · rw [effect_of_ne_set x.rt hset r.args now (r.env.clock 1)]
    exact heffect

theorem StoreRun.split_logged {logged : List (Env × Value)}
    (h : logged.map Prod.snd = (performAll x inline (r :: runs) s).2.map Prod.snd) :
    ∃ first rest, logged = first ++ rest ∧
      first.map Prod.snd = r.frames (r.handle x inline s).2 ∧
      rest.map Prod.snd = (performAll x inline runs (r.handle x inline s).1).2.map Prod.snd := by
  simp only [performAll, map_append, map_map] at h
  obtain ⟨first, rest, rfl, hfirst, hrest⟩ := map_eq_append_iff.mp h
  refine ⟨first, rest, rfl, hfirst.trans ?_, hrest⟩
  exact map_id _

theorem frames_other {rt : Runtime} {logged : List (Env × Value)} {frames : List Value}
    (hlogged : logged.map Prod.snd = frames) (hframes : ∀ frame ∈ frames, k ∉ frameKeys rt frame) :
    ∀ p ∈ logged, k ∉ frameKeys rt p.2 :=
  fun _ hp => hframes _ (hlogged ▸ mem_map_of_mem hp)

theorem Executor.executeAll_plain (y : Executor) (hplain : copy.store.maxMemoryEnabled = false)
    (logged : List (Env × Value)) : (y.executeAll logged copy).store.maxMemoryEnabled = false :=
  (enabled_of_eq (y.maxMemory_executeAll logged copy)).trans hplain

variable {y : Executor} (hrt : y.rt = x.rt)

include hrt

variable {logged : List (Env × Value)}

/-- **Executing the frames of a write** writes the key; the frame of what was evicted leaves it. -/
theorem executeAll_wrote {c : CommandName} {args args' : List Bytes} {d : Int} {m : Mutation}
    {evicted : List Bytes} (hevicted : k ∉ evicted)
    (hlogged : logged.map Prod.snd =
      commandFrameOf c ⟨c.text, args⟩ d :: evictionFrames evicted)
    (hargs : loggedArgs c args d = args')
    (hvalid : ∀ p ∈ logged, c.validate x.rt args' (p.1.clock 0) = .ok ())
    (heffect : ∀ p ∈ logged, c.effect x.rt args' (p.1.clock 1) = .write k m)
    (hplain : copy.store.maxMemoryEnabled = false) (hdone : ∀ p ∈ logged, p.1.DoneBy t) :
    ∃ p ∈ logged, FadesAt t k (copy.store.mutate k m (p.1.after 2)).1.view
      (y.executeAll logged copy).store.view := by
  obtain ⟨⟨env, frame⟩, rest, rfl, rfl, hrest⟩ := map_eq_cons_iff.mp hlogged
  have hfirst : (env, commandFrameOf c ⟨c.text, args⟩ d) ∈
      (env, commandFrameOf c ⟨c.text, args⟩ d) :: rest := mem_cons_self
  have hdecode := decode_commandFrameOf y.rt c args d
  rw [hargs] at hdecode
  obtain ⟨w', outcome, hexecute, hstore, -⟩ := y.execute_write hdecode
    (hrt ▸ hvalid _ hfirst) (hrt ▸ heffect _ hfirst) copy
  refine ⟨_, hfirst, ?_⟩
  rw [← hstore, executeAll, hexecute]
  refine y.fadesAt_executeAll (frames_other hrest (not_mem_evictionFrames y.rt hevicted)) ?_
    fun p hp => hdone p (mem_cons_of_mem _ hp)
  rw [hstore]
  exact (enabled_of_eq (copy.store.mutate_spec k m (env.after 2)).1).trans hplain

/-- The same for a change in place, with what it does on a live string. -/
theorem Modifies.executeAll (h : Modifies x inline k r s) {e₁ : Entry}
    (held : (r.handle x inline s).1.view k = some e₁)
    (hlogged : logged.map Prod.snd = r.frames (r.handle x inline s).2)
    (hplain : copy.store.maxMemoryEnabled = false) (hdone : ∀ p ∈ logged, p.1.DoneBy t) :
    ∃ p ∈ logged, ∃ m : Mutation, m.InPlace ∧
      (∃ e, s.view k = some e ∧ m.apply 0 (some e) = .ok (some e₁)) ∧
      FadesAt t k (copy.store.mutate k m (p.1.after 2)).1.view
        (y.executeAll logged copy).store.view := by
  obtain ⟨m, evicted, hm, hvalid, heffect, hframes, hargs, hevicted, hentry⟩ := h.logged held
  rw [hframes] at hlogged
  obtain ⟨p, hp, hfades⟩ := executeAll_wrote hrt hevicted hlogged hargs (fun p _ => hvalid _)
    (fun p _ => heffect _) hplain hdone
  exact ⟨p, hp, m, hm, hentry, hfades⟩

/-- **A live key stays alive**: as long as its deadline does not pass, the frames leave the key with
that deadline, whatever it holds. -/
theorem Kept.alive {modified : Bool} (h : Kept x inline k s e runs last modified)
    (hlogged : logged.map Prod.snd = (StoreRun.performAll x inline runs s).2.map Prod.snd)
    (hplain : copy.store.maxMemoryEnabled = false) {held : Entry}
    (hheld : copy.store.view k = some held) (hdone : ∀ p ∈ logged, p.1.DoneBy t)
    (hlive : isExpired held.expiresAt t = false) :
    ∃ e', (y.executeAll logged copy).store.view k = some e' ∧ e'.expiresAt = held.expiresAt := by
  induction h generalizing logged copy held with
  | nil s e =>
    obtain rfl := map_eq_nil_iff.mp hlogged
    exact ⟨held, hheld, rfl⟩
  | passive first _ ih =>
    obtain ⟨now, later, rfl, hnow, hlater⟩ := StoreRun.split_logged hlogged
    have hnowDone := fun p hp => hdone p (mem_append_left later hp)
    rw [executeAll_append]
    refine ih hlater (y.executeAll_plain hplain now) ?_
      (fun p hp => hdone p (mem_append_right _ hp)) hlive
    exact (y.fadesAt_executeAll (frames_other hnow (hrt ▸ first.frames)) hplain hnowDone).eq
      hheld hlive
  | modifies first held' _ ih =>
    obtain ⟨now, later, rfl, hnow, hlater⟩ := StoreRun.split_logged hlogged
    have hnowDone := fun p hp => hdone p (mem_append_left later hp)
    obtain ⟨p, hp, m, hm, -, hfades⟩ := first.executeAll hrt held' hnow hplain hnowDone
    have hreading : (p.1.after 2).now 0 ≤ t := hnowDone p hp 2
    obtain ⟨e', he', hkept⟩ := mutate_alive hplain hm hheld
      (not_expired_before hreading hlive)
    rw [executeAll_append, ← hkept]
    rw [← hkept] at hlive
    exact ih hlater (y.executeAll_plain hplain now) (hfades.eq he' hlive)
      (fun p hp => hdone p (mem_append_right _ hp)) hlive

/-- **Replayed in time**, the frames leave what the key was last changed to. -/
theorem Kept.track {modified : Bool} (h : Kept x inline k s e runs last modified)
    (hs : s.view k = some e ∨ s.view k = none)
    (hlogged : logged.map Prod.snd = (StoreRun.performAll x inline runs s).2.map Prod.snd)
    (hplain : copy.store.maxMemoryEnabled = false) (hcopy : copy.store.view k = some e)
    (hdone : ∀ p ∈ logged, p.1.DoneBy t) (hlive : isExpired e.expiresAt t = false) :
    (y.executeAll logged copy).store.view k = some last := by
  induction h generalizing logged copy with
  | nil s e =>
    obtain rfl := map_eq_nil_iff.mp hlogged
    exact hcopy
  | passive first _ ih =>
    obtain ⟨now, later, rfl, hnow, hlater⟩ := StoreRun.split_logged hlogged
    have hnowDone := fun p hp => hdone p (mem_append_left later hp)
    rw [executeAll_append]
    refine ih ?_ hlater (y.executeAll_plain hplain now) ?_
      (fun p hp => hdone p (mem_append_right _ hp)) hlive
    · obtain ⟨i, hfades⟩ := first.view
      rcases hfades with hsame | ⟨hgone, -⟩
      · rw [hsame]
        exact hs
      · exact .inr hgone
    · exact (y.fadesAt_executeAll (frames_other hnow (hrt ▸ first.frames)) hplain hnowDone).eq
        hcopy hlive
  | modifies first held _ ih =>
    obtain ⟨now, later, rfl, hnow, hlater⟩ := StoreRun.split_logged hlogged
    have hnowDone := fun p hp => hdone p (mem_append_left later hp)
    obtain ⟨p, hp, m, hm, ⟨e', he', happly⟩, hfades⟩ :=
      first.executeAll hrt held hnow hplain hnowDone
    -- the entry that was changed is the one the copy holds
    rw [he', or_iff_left (by simp)] at hs
    cases hs
    obtain ⟨e₁, he₁, hkept⟩ := hm.keeps happly
    obtain rfl := Option.some.inj he₁
    have hreading : (p.1.after 2).now 0 ≤ t := hnowDone p hp 2
    have hagain := mutate_again hplain hm hcopy (not_expired_before hreading hlive) happly
    rw [executeAll_append]
    rw [← hkept] at hlive
    exact ih (.inl held) hlater (y.executeAll_plain hplain now) (hfades.eq hagain hlive)
      (fun p hp => hdone p (mem_append_right _ hp)) hlive

/-- **Replayed too late**, the first change brings the key back, without a deadline. -/
theorem Kept.resurrects (h : Kept x inline k s e runs last true)
    (hlogged : logged.map Prod.snd = (StoreRun.performAll x inline runs s).2.map Prod.snd) {d : Int}
    (hd : 0 < d) (hlate : ∀ p ∈ logged, ∀ i, d < p.1.now i)
    (hplain : copy.store.maxMemoryEnabled = false)
    (hcopy : ∀ held, copy.store.view k = some held → held.expiresAt = d) :
    ∃ e', (y.executeAll logged copy).store.view k = some e' ∧ e'.expiresAt = 0 := by
  generalize hmodified : true = modified at h
  have hdone : ∀ p : Env × Value, p.1.DoneBy 9223372036854 :=
    fun p i => (p.1.clock i).millis_le
  induction h generalizing logged copy with
  | nil s e => cases hmodified
  | passive first _ ih =>
    obtain ⟨now, later, rfl, hnow, hlater⟩ := StoreRun.split_logged hlogged
    rw [executeAll_append]
    refine ih hlater (fun p hp => hlate p (mem_append_right _ hp))
      (y.executeAll_plain hplain now) ?_ hmodified
    have hfades := y.fadesAt_executeAll (frames_other hnow (hrt ▸ first.frames)) hplain
      fun p _ => hdone p
    intro held hheld
    rcases hfades with hsame | ⟨hgone, -⟩
    · exact hcopy held (hsame ▸ hheld)
    · rw [hgone] at hheld
      cases hheld
  | modifies first held rest _ =>
    obtain ⟨now, later, rfl, hnow, hlater⟩ := StoreRun.split_logged hlogged
    obtain ⟨p, hp, m, hm, ⟨e', -, happly⟩, hfades⟩ :=
      first.executeAll hrt held hnow hplain fun p _ => hdone p
    have hgone : liveEntry (copy.store.view k) ((p.1.after 2).now 0) = none := by
      cases hview : copy.store.view k with
      | none => rfl
      | some entry =>
        have hexpired : isExpired entry.expiresAt ((p.1.after 2).now 0) = true := by
          rw [hcopy entry hview, isExpired_iff]
          exact ⟨hd, hlate p (mem_append_left _ hp) 2⟩
        rw [liveEntry, Option.filter_some, hexpired]
        rfl
    obtain ⟨fresh, hfresh, hzero⟩ := mutate_fresh hplain hm hgone happly
    have hforever : isExpired fresh.expiresAt 9223372036854 = false := by
      rw [hzero]
      rfl
    rw [executeAll_append, ← hzero]
    exact rest.alive hrt hlater (y.executeAll_plain hplain now) (hfades.eq hfresh hforever)
      (fun p _ => hdone p) hforever

omit hrt in
theorem Kept.frames_other (h : Kept x inline k s e runs last false) :
    last = e ∧ ∀ frame ∈ (StoreRun.performAll x inline runs s).2.map Prod.snd,
      k ∉ frameKeys x.rt frame := by
  generalize hmodified : false = modified at h
  induction h with
  | nil s e => exact ⟨rfl, fun _ h => by cases h⟩
  | passive first _ ih =>
    obtain ⟨hlast, hrest⟩ := ih hmodified
    refine ⟨hlast, fun frame hframe => ?_⟩
    rw [StoreRun.performAll, map_append, map_map] at hframe
    rcases mem_append.mp hframe with hframe | hframe
    · obtain ⟨frame', hframe', rfl⟩ := mem_map.mp hframe
      exact first.frames _ hframe'
    · exact hrest frame hframe
  | modifies => cases hmodified

end Runs

/-! ## The whole run -/

/-- A run in which a key is written by SET with EX, PX or PXAT and from then on is kept. -/
structure DeadlineRun (x : Executor) where
  inline : Bool
  start : Store
  before : List StoreRun
  set : StoreRun
  after : List StoreRun
  key : Bytes
  value : Bytes
  option : Bytes
  raw : Bytes
  deadline : Int
  /-- what the key held after its last change -/
  last : Entry
  /-- whether it was changed after the SET -/
  modified : Bool
  command : set.command = .set
  args : set.args = [key, value, option, raw]
  valid : set.Valid x
  parsed : parseExpiryMillis x.rt [option, raw] (set.env.clock 1) = .ok deadline
  succeeds : ∃ reply,
    (set.handle x inline (StoreRun.performAll x inline before start).1).2 = .ok reply
  kept : Kept x inline key (set.handle x inline (StoreRun.performAll x inline before start).1).1
    ⟨.string value, deadline⟩ after last modified

namespace DeadlineRun

variable {x : Executor} (r : DeadlineRun x)

/-- The durability frames of the run. -/
def frames : List Value :=
  (StoreRun.performAll x r.inline (r.before ++ r.set :: r.after) r.start).2.map Prod.snd

/-- The store before the SET. -/
def beforeSet : Store :=
  (StoreRun.performAll x r.inline r.before r.start).1

/-- The store after the SET. -/
def afterSet : Store :=
  (r.set.handle x r.inline r.beforeSet).1

/-- **The key stays dead**: replayed on an empty store after the deadline, the frames leave the key
not live, and replayed by the deadline they leave it with the value and the deadline it was last
changed to. -/
def StaysDead (y : Executor) (hash : Bytes → Fin 256) (clients : Nat → ClientState) : Prop :=
  ∀ logged : List (Env × Value), logged.map Prod.snd = r.frames →
    ((∀ p ∈ logged, ∀ i, r.deadline < p.1.now i) → ∀ t, r.deadline < t →
      (y.executeAll logged ⟨.newStore hash, clients⟩).store.view.liveAt t r.key = none) ∧
    ((∀ p ∈ logged, ∀ i, p.1.now i ≤ r.deadline) →
      (y.executeAll logged ⟨.newStore hash, clients⟩).store.view r.key = some r.last)

theorem logged_set : ∃ evicted, r.key ∉ evicted ∧
    r.afterSet.view r.key = some ⟨.string r.value, r.deadline⟩ ∧
    r.set.frames (r.set.handle x r.inline r.beforeSet).2 =
      commandFrameOf .set ⟨CommandName.set.text, [r.key, r.value, r.option, r.raw]⟩
        r.deadline :: evictionFrames evicted := by
  obtain ⟨reply, hok⟩ := r.succeeds
  obtain ⟨key, m, evicted, heffect, hmutated, hstore, hframes, hevicted⟩ :=
    StoreRun.wrote_of_ok (by rw [r.command]; rfl) (by rw [r.command]; decide) hok
  rw [r.command] at heffect hframes
  rw [r.args] at heffect
  obtain ⟨value, options, d, hargs, rfl, hparse⟩ := effect_set heffect
  cases hargs
  rw [r.parsed] at hparse
  cases hparse
  have hview : r.afterSet.view r.key = some ⟨.string r.value, r.deadline⟩ := by
    unfold afterSet beforeSet
    rw [hstore]
    exact (Except.ok.inj (mutate_entry hmutated)).symm
  refine ⟨evicted, hevicted ?_, hview, ?_⟩
  · change r.afterSet.view r.key ≠ none
    rw [hview]
    simp
  · refine hframes.trans ?_
    rw [StoreRun.request, r.command, r.args]
    rfl

/-- A log of the run is one of what was before the SET, one of the SET and one of the rest. -/
theorem split_logged {logged : List (Env × Value)} (h : logged.map Prod.snd = r.frames) :
    ∃ early now late, logged = early ++ (now ++ late) ∧
      now.map Prod.snd = r.set.frames (r.set.handle x r.inline r.beforeSet).2 ∧
      late.map Prod.snd = (StoreRun.performAll x r.inline r.after r.afterSet).2.map Prod.snd := by
  rw [frames, performAll_append, map_append] at h
  obtain ⟨early, rest, rfl, -, hrest⟩ := map_eq_append_iff.mp h
  obtain ⟨now, late, rfl, hnow, hlate⟩ := StoreRun.split_logged hrest
  exact ⟨early, now, late, rfl, hnow, hlate⟩

/-- The options the SET is logged with. -/
def loggedOptions : List Bytes :=
  if 0 < r.deadline then [ascii "PXAT", formatInt r.deadline] else [r.option, r.raw]

theorem loggedArgs_set : loggedArgs .set [r.key, r.value, r.option, r.raw] r.deadline =
    r.key :: r.value :: r.loggedOptions := by
  unfold loggedArgs loggedOptions
  simp only
  split <;> rfl

theorem parse_loggedOptions (h : 0 < r.deadline) (now : Instant) :
    parseExpiryMillis x.rt r.loggedOptions now = .ok r.deadline := by
  rw [loggedOptions, if_pos h]
  exact parseExpiryMillis_pxat x.rt h (parseExpiryMillis_inInt64 r.parsed) now

/-- Executing the frames of the SET sets the key, with the deadline its options give then. -/
theorem executeAll_set {y : Executor} (hrt : y.rt = x.rt) {now : List (Env × Value)}
    (hnow : now.map Prod.snd = r.set.frames (r.set.handle x r.inline r.beforeSet).2)
    {copy : World} (hplain : copy.store.maxMemoryEnabled = false) {d : Int}
    (hparse : ∀ p ∈ now, ∀ i, parseExpiryMillis x.rt r.loggedOptions (p.1.clock i) = .ok d)
    {t : Int} (hdone : ∀ p ∈ now, p.1.DoneBy t) :
    ∃ ks : Keyspace, ks r.key = some ⟨.string r.value, d⟩ ∧
      FadesAt t r.key ks (y.executeAll now copy).store.view := by
  obtain ⟨evicted, hevicted, -, hframes⟩ := r.logged_set
  rw [hframes] at hnow
  obtain ⟨p, hp, hfades⟩ := executeAll_wrote hrt hevicted hnow r.loggedArgs_set
    (fun p hp => (set_of_parse (hparse p hp 0) (hparse p hp 0)).1)
    (fun p hp => (set_of_parse (hparse p hp 1) (hparse p hp 1)).2) hplain hdone
  refine ⟨_, ?_, hfades⟩
  have happly : (Mutation.set r.value d).apply ((p.1.after 2).now 0)
      (liveEntry (copy.store.view r.key) ((p.1.after 2).now 0)) =
        .ok (some ⟨.string r.value, d⟩) := rfl
  rw [((mutate_acts hplain r.key _ (p.1.after 2)).of_apply happly).2, update_self]

/-- A deadline that is not positive comes from a number of seconds or milliseconds that overflowed;
the options give a deadline at any time. -/
theorem parse_overflowed (h : ¬0 < r.deadline) :
    r.loggedOptions = [r.option, r.raw] ∧
      ∃ duration, r.deadline = addMillis (r.set.env.clock 1) duration ∧
        ∀ now, parseExpiryMillis x.rt [r.option, r.raw] now = .ok (addMillis now duration) := by
  refine ⟨if_neg h, ?_⟩
  have hparsed := r.parsed
  unfold parseExpiryMillis at hparsed ⊢
  simp only at hparsed ⊢
  cases hread : readInt64 r.raw with
  | none =>
    rw [hread] at hparsed
    cases hparsed
  | some number =>
    rw [hread] at hparsed
    simp only at hparsed ⊢
    split at hparsed
    · cases hparsed
    · rename_i hpos
      simp only [if_neg hpos]
      split at hparsed
      · rename_i hunit
        simp only [if_pos hunit]
        exact ⟨_, (Except.ok.inj hparsed).symm, fun _ => rfl⟩
      · rename_i hex
        split at hparsed
        · rename_i hunit
          simp only [if_neg hex, if_pos hunit]
          exact ⟨_, (Except.ok.inj hparsed).symm, fun _ => rfl⟩
        · split at hparsed
          · have hdeadline := Except.ok.inj hparsed
            omega
          · cases hparsed

/-- **Without a positive deadline the key can be replayed alive** after the deadline. -/
theorem exists_alive (h : ¬0 < r.deadline) : ∃ now : Instant, r.deadline < now.millis ∧
    ∃ d, (parseExpiryMillis x.rt r.loggedOptions now = .ok d) ∧ isExpired d now.millis = false := by
  obtain ⟨hoptions, duration, hdeadline, hparse⟩ := r.parse_overflowed h
  rw [hoptions]
  by_cases hlate : r.deadline < (r.set.env.clock 1).millis
  · -- at the reading of the SET itself
    refine ⟨r.set.env.clock 1, hlate, r.deadline, by rw [hparse, ← hdeadline], ?_⟩
    rw [Bool.eq_false_iff, ne_eq, isExpired_iff]
    exact fun hexpired => h hexpired.1
  · -- the SET read the first millisecond; take the second one
    have hnonneg := (r.set.env.clock 1).millis_nonneg
    refine ⟨.ofMillis 1 (by decide), ?_, _, hparse _, ?_⟩
    · have : (Instant.ofMillis 1 (by decide)).millis = 1 := by decide
      omega
    · rw [Bool.eq_false_iff, ne_eq, isExpired_iff]
      unfold addMillis Instant.millis at *
      simp only [Instant.ofMillis] at *
      omega

/-- The log executed at one moment. -/
def loggedAt (now : Instant) : List (Env × Value) :=
  r.frames.map fun frame => (.frozen now, frame)

theorem map_loggedAt (now : Instant) : (r.loggedAt now).map Prod.snd = r.frames := by
  rw [loggedAt, map_map]
  exact map_id _

theorem env_loggedAt {now : Instant} {p : Env × Value} (hp : p ∈ r.loggedAt now) :
    p.1 = .frozen now := by
  obtain ⟨frame, -, rfl⟩ := mem_map.mp hp
  rfl

section Replay

variable {y : Executor} (hrt : y.rt = x.rt) {copy : World}
  (hplain : copy.store.maxMemoryEnabled = false)

include hrt hplain

variable {logged : List (Env × Value)}

/-- Executed by the deadline, the log gives what the key was last changed to. -/
theorem executeAll_in_time (h : 0 < r.deadline)
    (hlogged : logged.map Prod.snd = r.frames) (hdone : ∀ p ∈ logged, p.1.DoneBy r.deadline) :
    (y.executeAll logged copy).store.view r.key = some r.last := by
  obtain ⟨early, now, late, rfl, hnow, hlate⟩ := r.split_logged hlogged
  have hlive : isExpired r.deadline r.deadline = false := by
    rw [Bool.eq_false_iff, ne_eq, isExpired_iff]
    omega
  rw [executeAll_append, executeAll_append]
  have hearly := y.executeAll_plain hplain early
  obtain ⟨ks, hks, hfades⟩ := r.executeAll_set hrt hnow hearly
    (fun _ _ _ => r.parse_loggedOptions h _) fun p hp => hdone p (by simp [hp])
  obtain ⟨-, -, hview, -⟩ := r.logged_set
  exact r.kept.track hrt (.inl hview) hlate (y.executeAll_plain hearly now) (hfades.eq hks hlive)
    (fun p hp => hdone p (by simp [hp])) hlive

/-- Executed after the deadline, the log of a key that was not changed leaves it dead. -/
theorem executeAll_too_late (h : 0 < r.deadline) (hmodified : r.modified = false)
    (hlogged : logged.map Prod.snd = r.frames) {t : Int}
    (ht : r.deadline < t) : (y.executeAll logged copy).store.view.liveAt t r.key = none := by
  obtain ⟨early, now, late, rfl, hnow, hlate⟩ := r.split_logged hlogged
  have hdone : ∀ p : Env × Value, p.1.DoneBy 9223372036854 := fun p i => (p.1.clock i).millis_le
  rw [executeAll_append, executeAll_append]
  have hearly := y.executeAll_plain hplain early
  obtain ⟨ks, hks, hfades⟩ := r.executeAll_set hrt hnow hearly
    (fun _ _ _ => r.parse_loggedOptions h _) fun p _ => hdone p
  have hkept := r.kept
  rw [hmodified] at hkept
  have hother := frames_other hlate hkept.frames_other.2
  rw [← hrt] at hother
  have hall := hfades.trans
    (y.fadesAt_executeAll hother (y.executeAll_plain hearly now) fun p _ => hdone p)
  unfold Keyspace.liveAt liveEntry
  rcases hall with hsame | ⟨hgone, -⟩
  · have hexpired : isExpired r.deadline t = true := isExpired_iff.mpr ⟨h, ht⟩
    rw [hsame, hks, Option.filter_some, hexpired]
    rfl
  · rw [hgone]
    rfl

/-- Executed after the deadline, the log of a key that was changed brings it back. -/
theorem executeAll_resurrects (h : 0 < r.deadline) (hmodified : r.modified = true)
    (hlogged : logged.map Prod.snd = r.frames) (hlate : ∀ p ∈ logged, ∀ i, r.deadline < p.1.now i) :
    ∃ e, (y.executeAll logged copy).store.view r.key = some e ∧ e.expiresAt = 0 := by
  obtain ⟨early, now, late, rfl, hnow, hrest⟩ := r.split_logged hlogged
  rw [executeAll_append, executeAll_append]
  have hearly := y.executeAll_plain hplain early
  obtain ⟨ks, hks, hfades⟩ := r.executeAll_set hrt hnow hearly
    (fun _ _ _ => r.parse_loggedOptions h _) fun p _ i => (p.1.clock i).millis_le
  have hkept := r.kept
  rw [hmodified] at hkept
  refine hkept.resurrects hrt hrest h (fun p hp => hlate p (by simp [hp]))
    (y.executeAll_plain hearly now) fun held hheld => ?_
  rcases hfades with hsame | ⟨hgone, -⟩
  · rw [hsame, hks] at hheld
    cases hheld
    rfl
  · rw [hgone] at hheld
    cases hheld

/-- Executed at a moment at which its options give a deadline that has not passed, the log leaves
the key live. -/
theorem executeAll_alive {now : Instant} {d : Int}
    (hparse : parseExpiryMillis x.rt r.loggedOptions now = .ok d)
    (hlive : isExpired d now.millis = false) :
    (y.executeAll (r.loggedAt now) copy).store.view.liveAt now.millis r.key ≠ none := by
  have henv := fun p hp => @env_loggedAt x r now p hp
  have hmap := r.map_loggedAt now
  generalize r.loggedAt now = logged at henv hmap
  obtain ⟨early, set, late, rfl, hset, hlate⟩ := r.split_logged hmap
  have hdone : ∀ p ∈ early ++ (set ++ late), p.1.DoneBy now.millis := by
    intro p hp i
    rw [henv p hp]
    exact le_refl _
  rw [executeAll_append, executeAll_append]
  have hearly := y.executeAll_plain hplain early
  obtain ⟨ks, hks, hfades⟩ := r.executeAll_set hrt hset hearly
    (fun p hp i => by rw [henv p (by simp [hp])]; exact hparse)
    fun p hp => hdone p (by simp [hp])
  obtain ⟨e, he, hkept⟩ := r.kept.alive hrt hlate (y.executeAll_plain hearly set)
    (hfades.eq hks hlive) (fun p hp => hdone p (by simp [hp])) hlive
  have hlive' : isExpired e.expiresAt now.millis = false := by
    rw [hkept]
    exact hlive
  unfold Keyspace.liveAt liveEntry
  rw [he, Option.filter_some, hlive']
  simp

end Replay

/-- **An expired key stays dead** if and only if its deadline is positive and it was not changed
after its SET, unless no clock reading is later than the deadline. -/
theorem expired_key_stays_dead_iff {y : Executor} (hrt : y.rt = x.rt) (hash : Bytes → Fin 256)
    (clients : Nat → ClientState) :
    r.StaysDead y hash clients ↔
      0 < r.deadline ∧ (r.modified = false ∨ ∀ now : Instant, now.millis ≤ r.deadline) := by
  have hplain : (World.mk (.newStore hash) clients).store.maxMemoryEnabled = false := rfl
  constructor
  · intro hdead
    by_cases hd : 0 < r.deadline
    · refine ⟨hd, ?_⟩
      cases hmodified : r.modified with
      | false => exact .inl rfl
      | true =>
        refine .inr fun now => not_lt.mp fun hlate => ?_
        -- a replay at `now` would bring the key back
        have hlate' : ∀ p ∈ r.loggedAt now, ∀ i, r.deadline < p.1.now i := by
          intro p hp i
          rw [r.env_loggedAt hp]
          exact hlate
        obtain ⟨e, he, hzero⟩ :=
          r.executeAll_resurrects hrt hplain hd hmodified (r.map_loggedAt now) hlate'
        have hnone := (hdead _ (r.map_loggedAt now)).1 hlate' now.millis hlate
        unfold Keyspace.liveAt liveEntry at hnone
        rw [he, Option.filter_some, hzero] at hnone
        cases hnone
    · obtain ⟨now, hlate, d, hparse, hlive⟩ := r.exists_alive hd
      refine absurd ((hdead _ (r.map_loggedAt now)).1 (fun p hp i => ?_) now.millis hlate)
        (r.executeAll_alive hrt hplain hparse hlive)
      rw [r.env_loggedAt hp]
      exact hlate
  · rintro ⟨hd, hcondition⟩ logged hlogged
    refine ⟨fun hlate t ht => ?_, fun hdone => r.executeAll_in_time hrt hplain hd hlogged hdone⟩
    rcases hcondition with hmodified | hnever
    · exact r.executeAll_too_late hrt hplain hd hmodified hlogged ht
    · -- the frame of the SET would have to be executed after the end of the clock
      obtain ⟨early, now, late, rfl, hnow, -⟩ := r.split_logged hlogged
      obtain ⟨evicted, -, -, hframes⟩ := r.logged_set
      rw [hframes] at hnow
      obtain ⟨p, rest, rfl, -, -⟩ := map_eq_cons_iff.mp hnow
      exact absurd (hnever (p.1.clock 0)) (not_le.mpr (hlate p (by simp) 0))

/-- `SET k 5 PXAT 1500` on an empty server, at 1000. -/
def setUntil : StoreRun :=
  ⟨.frozen firstSecond, .set, [ascii "k", ascii "5", ascii "PXAT", ascii "1500"]⟩

/-- Nothing but the SET. -/
def onlySet : DeadlineRun .quiet where
  inline := false
  start := World.initial.store
  before := []
  set := setUntil
  after := []
  key := ascii "k"
  value := ascii "5"
  option := ascii "PXAT"
  raw := ascii "1500"
  deadline := 1500
  last := ⟨.string (ascii "5"), 1500⟩
  modified := false
  command := rfl
  args := rfl
  valid := rfl
  parsed := by decide
  succeeds := ⟨_, rfl⟩
  kept := .nil _ _

theorem only_set_stays_dead : onlySet.StaysDead .quiet (fun _ => 0) fun _ => .fresh :=
  (onlySet.expired_key_stays_dead_iff rfl _ _).mpr ⟨by decide, .inl rfl⟩

/-- The SET, and `INCR k` in the same millisecond. -/
def setThenIncr : DeadlineRun .quiet where
  inline := false
  start := World.initial.store
  before := []
  set := setUntil
  after := [⟨.frozen firstSecond, .incr, [ascii "k"]⟩]
  key := ascii "k"
  value := ascii "5"
  option := ascii "PXAT"
  raw := ascii "1500"
  deadline := 1500
  last := ⟨.string (ascii "6"), 1500⟩
  modified := true
  command := rfl
  args := rfl
  valid := rfl
  parsed := by decide
  succeeds := ⟨_, rfl⟩
  kept := .modifies ⟨rfl, rfl, rfl, rfl, _, rfl⟩ rfl (.nil _ _)

/-- Replayed at 2000, the INCR makes a key that never expires. -/
theorem incremented_key_is_resurrected :
    ¬setThenIncr.StaysDead .quiet (fun _ => 0) fun _ => .fresh := by
  intro hdead
  have hlate : ∀ p ∈ setThenIncr.loggedAt (.ofMillis 2000 (by decide)), ∀ i,
      setThenIncr.deadline < p.1.now i := by
    intro p hp i
    rw [env_loggedAt _ hp]
    change (1500 : Int) < (Instant.ofMillis 2000 (by decide)).millis
    decide
  have hnone := (hdead _ (setThenIncr.map_loggedAt _)).1 hlate 2000 (by decide)
  have hthere : ((quiet.executeAll (setThenIncr.loggedAt (.ofMillis 2000 (by decide)))
      .initial).store.view.liveAt 2000 (ascii "k")).isSome = true := by decide +kernel
  rw [show setThenIncr.key = ascii "k" from rfl] at hnone
  rw [show World.initial = ⟨.newStore fun _ => 0, fun _ => .fresh⟩ from rfl, hnone] at hthere
  cases hthere

end DeadlineRun

end Stash
