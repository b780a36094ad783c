import Stash.CommandEffects
import Stash.Executor

/-!
# Executing logged frames

The frames a command leaves in the log decode to a request for the same effect
(`logged_write`), and in the context of a replay, without a connection, an accepted
request goes straight to its handler (`execute_replay`).
-/

namespace Stash

open DecimalText GoMap Handlers Executor

/-! ## Frames decode to requests -/

variable (rt : Runtime) (c : CommandName) (args : List Bytes)

theorem decode_textFrame {rest : List Value} {args : List Bytes} (h : decodeArgs rest = .ok args) :
    decodeRequest rt (.array (Value.text c.text :: rest) false) = .ok ⟨c.text, args⟩ := by
  simp only [decodeRequest, Value.text, Value.bytes, h]
  change Except.ok (Request.mk (rt.toUpper c.text) args) = _
  rw [c.toUpper_text rt]

theorem decode_propagationFrame :
    decodeRequest rt (propagationFrame ⟨c.text, args⟩) = .ok ⟨c.text, args⟩ :=
  decode_textFrame rt c (decodeArgs_bulk args)

theorem decode_deleteFrame (keys : List Bytes) :
    decodeRequest rt (deleteFrame keys) = .ok ⟨CommandName.del.text, keys⟩ :=
  decode_textFrame rt .del (decodeArgs_bulk keys)

/-- The arguments a command is logged with. -/
def loggedArgs (c : CommandName) (args : List Bytes) (setExpiryMillis : Int) : List Bytes :=
  match c, args with
  | .set, key :: value :: _ =>
    if 0 < setExpiryMillis then [key, value, ascii "PXAT", formatInt setExpiryMillis] else args
  | _, _ => args

theorem decode_commandFrameOf (d : Int) :
    decodeRequest rt (commandFrameOf c ⟨c.text, args⟩ d) = .ok ⟨c.text, loggedArgs c args d⟩ := by
  cases c with
  | set =>
    match args with
    | [] | [_] => exact decode_propagationFrame rt .set _
    | key :: value :: options =>
      by_cases hd : 0 < d
      · simp only [commandFrameOf, rewriteSetFrame, loggedArgs, if_pos hd]
        exact decode_textFrame rt .set rfl
      · simp only [commandFrameOf, rewriteSetFrame, loggedArgs, if_neg hd]
        exact decode_propagationFrame rt .set _
  | _ => exact decode_propagationFrame rt _ args

/-! ## Logged requests have the effect of the command -/

theorem loggedArgs_of_ne_set {c : CommandName} (hc : c ≠ .set) (args : List Bytes) (d : Int) :
    loggedArgs c args d = args := by
  cases c with
  | set => exact absurd rfl hc
  | _ => rfl

theorem validate_of_ne_set {c : CommandName} (hc : c ≠ .set) (args : List Bytes)
    (now now' : Instant) : c.validate rt args now = c.validate rt args now' := by
  cases c with
  | set => exact absurd rfl hc
  | _ => rfl

theorem effect_of_ne_set {c : CommandName} (hc : c ≠ .set) (args : List Bytes)
    (now now' : Instant) : c.effect rt args now = c.effect rt args now' := by
  cases c with
  | set => exact absurd rfl hc
  | _ => rfl

theorem parseExpiryMillis_inInt64 {rt : Runtime} {options : List Bytes} {now : Instant} {d : Int}
    (h : parseExpiryMillis rt options now = .ok d) : InInt64 d := by
  have hadd : ∀ z, InInt64 (addMillis now (wrap64 z)) := by
    intro z
    have hbounded := now.bounded
    have hlow : -(2 ^ 63 : Int) ≤ wrap64 z := Int.le_bmod (by decide)
    have hhigh : wrap64 z < (2 ^ 63 : Int) := Int.bmod_lt (by decide)
    unfold addMillis InInt64
    omega
  unfold parseExpiryMillis at h
  split at h
  · cases h
    decide
  · split at h
    · cases h
    · rename_i value hvalue
      split at h
      · cases h
      · split at h
        · cases h
          exact hadd _
        · split at h
          · cases h
            exact hadd _
          · split at h
            · cases h
              exact (readInt64_eq_some_iff.mp hvalue).2
            · cases h
  · cases h

/-- What a validated SET is. -/
theorem effect_set {rt : Runtime} {args : List Bytes} {now : Instant} {key : Bytes} {m : Mutation}
    (h : CommandName.set.effect rt args now = .write key m) :
    ∃ value options d, args = key :: value :: options ∧ m = .set value d ∧
      parseExpiryMillis rt options now = .ok d := by
  match args with
  | [] | [_] => cases h
  | key' :: value :: options =>
    obtain ⟨rfl, d, hparse, rfl⟩ := ofParsed_write h
    exact ⟨value, options, d, rfl, rfl, mapError_ok hparse⟩

/-- A SET with this option list. -/
theorem set_of_parse {rt : Runtime} {key value : Bytes} {options : List Bytes} {now now' : Instant}
    {d : Int} (h : parseExpiryMillis rt options now = .ok d)
    (h' : parseExpiryMillis rt options now' = .ok d) :
    CommandName.set.validate rt (key :: value :: options) now = .ok () ∧
      CommandName.set.effect rt (key :: value :: options) now' = .write key (.set value d) := by
  simp only [CommandName.validate, validateSetRequest, CommandName.effect, h, h']
  exact ⟨trivial, rfl⟩

/-- **A logged mutation is the mutation that was made**, at the readings of the original command,
and at any readings if the command was no SET whose relative expiry was logged as it stands. -/
theorem logged_write {rt : Runtime} {c : CommandName} {args : List Bytes} {now₀ now : Instant}
    {key : Bytes} {m : Mutation} (hvalid : c.validate rt args now₀ = .ok ())
    (heffect : c.effect rt args now = .write key m) {now₀' now' : Instant}
    (hnow : (now₀' = now₀ ∧ now' = now) ∨
      (c = .set → 0 < m.deadline ∨ args.length = 2)) :
    c.validate rt (loggedArgs c args m.deadline) now₀' = .ok () ∧
      c.effect rt (loggedArgs c args m.deadline) now' = .write key m := by
  by_cases hc : c = .set
  · subst hc
    obtain ⟨value, options, d, rfl, rfl, hparse⟩ := effect_set heffect
    have hdeadline : (Mutation.set value d).deadline = d := rfl
    rw [hdeadline] at hnow ⊢
    by_cases hd : 0 < d
    · rw [show loggedArgs .set (key :: value :: options) d = _ from if_pos hd]
      have hpxat := parseExpiryMillis_pxat rt hd (parseExpiryMillis_inInt64 hparse)
      exact set_of_parse (hpxat now₀') (hpxat now')
    · rw [show loggedArgs .set (key :: value :: options) d = _ from if_neg hd]
      rcases hnow with ⟨rfl, rfl⟩ | hshort
      · exact ⟨hvalid, heffect⟩
      · -- without options the deadline is 0 at any time
        have hoptions : options = [] := by
          rcases hshort rfl with h | h
          · exact absurd h hd
          · simpa using h
        subst hoptions
        cases hparse
        exact set_of_parse rfl rfl
  · rw [loggedArgs_of_ne_set hc, validate_of_ne_set rt hc args now₀' now₀,
      effect_of_ne_set rt hc args now' now]
    exact ⟨hvalid, heffect⟩

/-- What the effect of a command says about the command. -/
def StoreEffect.Fits (c : CommandName) (args : List Bytes) : StoreEffect → Prop
  | .refuse => True
  | .read => c.durable = false
  | .write _ _ => c.durable = true
  | .delete keys => c = .del ∧ args = keys ∧ keys ≠ []
  | .take key => c = .blPop ∧ args = [key]

theorem fits_ofParsed {α : Type} {c : CommandName} {args : List Bytes} {key : Bytes}
    {m : α → Mutation} {arguments : Except CommandError α} (h : c.durable = true) :
    (StoreEffect.ofParsed key m arguments).Fits c args := by
  cases arguments with
  | error err => trivial
  | ok a => exact h

/-- **The commands that mutate keys are the durable ones**, BLPOP apart. -/
theorem effect_fits (now : Instant) : (c.effect rt args now).Fits c args := by
  cases c with
  | del =>
    match args with
    | [] => trivial
    | key :: rest => exact ⟨rfl, rfl, by simp⟩
  | blPop =>
    match args with
    | [] => trivial
    | [key] => exact ⟨rfl, rfl⟩
    | _ :: _ :: _ => trivial
  | set | setBit | zAdd | geoAdd =>
    simp only [CommandName.effect]
    split
    · exact fits_ofParsed rfl
    · trivial
  | lPop | rPop =>
    simp only [CommandName.effect, popEffect]
    split
    · rfl
    · exact fits_ofParsed rfl
    · trivial
  | pfAdd | incr | lPush | rPush | xAdd | hSet | hDel | sAdd | sRem =>
    simp only [CommandName.effect, pushEffect]
    split
    · rfl
    · trivial
  | _ => rfl

/-- Every durable command uses the store. -/
theorem storeHandler_of_durable (inline : Bool) {c : CommandName}
    (h : c.durable = true) : ∃ handler, storeHandler rt inline c = some handler := by
  cases c <;> first | exact ⟨_, rfl⟩ | cases h

namespace Executor

variable (x : Executor)

/-! ## The context of a replay -/

theorem validateContext_replay (request : Request) (w : World) :
    x.validateContext .replay request w = .ok () := by
  simp only [validateContext, validateSubscriptionContext, validateAuthContext,
    show w.clientState .replay = none from rfl]
  split <;> rfl

theorem maybeQueue_replay (request : Request) (now : Instant) (w : World) :
    x.maybeQueueRequest .replay request now w = none := rfl

/-- **A frame of a valid command is run** when it is executed without a connection. -/
theorem execute_replay {c : CommandName} (hc : c ≠ .exec) {args : List Bytes}
    {value : Value} (hdecode : decodeRequest x.rt value = .ok ⟨c.text, args⟩) {envs : Nat → Env}
    (hvalid : c.validate x.rt args ((envs 0).clock 0) = .ok ()) (w : World) :
    x.executeDetailed .replay envs value w = x.runCommand .replay (envs 0) c ⟨c.text, args⟩ w := by
  have hlookup : x.lookup ⟨c.text, args⟩ ((envs 0).clock 0) = .ok c := by
    simp only [lookup, c.ofText_text, hvalid]
    rfl
  simp only [executeDetailed, hdecode, executeRequest, x.validateContext_replay,
    x.maybeQueue_replay, hlookup]

/-- A frame of an invalid command is refused. -/
theorem execute_invalid {c : CommandName} {args : List Bytes} {value : Value}
    (hdecode : decodeRequest x.rt value = .ok ⟨c.text, args⟩) {envs : Nat → Env}
    {err : CommandError} (hinvalid : c.validate x.rt args ((envs 0).clock 0) = .error err)
    (w : World) : x.executeDetailed .replay envs value w = (w, .error (.refused err)) := by
  have hlookup : x.lookup ⟨c.text, args⟩ ((envs 0).clock 0) = .error err := by
    simp only [lookup, c.ofText_text, hinvalid]
    rfl
  simp only [executeDetailed, hdecode, executeRequest, x.validateContext_replay,
    x.maybeQueue_replay, hlookup]

/-- What running a command that uses the store gives. -/
theorem runCommand_eq {ctx : Context} {env : Env} {c : CommandName} {request : Request}
    {handler : Store → List Bytes → Env → Handled}
    (hc : storeHandler x.rt ctx.inline c = some handler) (w : World) :
    (x.runCommand ctx env c request w).1.store = (handler w.store request.args env).1 ∧
      (x.runCommand ctx env c request w).2 =
        (handler w.store request.args env).2.map fun reply =>
          ⟨[reply.response], propagationFrames ctx c request reply,
            durabilityFrames c request reply, [], false⟩ := by
  simp only [runCommand, hc]
  generalize handler w.store request.args env = result
  match result with
  | (s, .error failure) => exact ⟨rfl, rfl⟩
  | (s, .ok reply) => exact ⟨rfl, rfl⟩

/-- **Executing the frame of a mutation makes the mutation.** -/
theorem execute_write {c : CommandName} {args : List Bytes} {value : Value} {env : Env}
    {key : Bytes} {m : Mutation} (hdecode : decodeRequest x.rt value = .ok ⟨c.text, args⟩)
    (hvalid : c.validate x.rt args (env.clock 0) = .ok ())
    (heffect : c.effect x.rt args (env.clock 1) = .write key m) (w : World) :
    ∃ w' outcome, x.executeDetailed .replay (fun _ => env) value w = (w', outcome) ∧
      w'.store = (w.store.mutate key m (env.after 2)).1 ∧
      match (w.store.mutate key m (env.after 2)).2 with
      | .ok _ => ∃ result, outcome = .ok result
      | .error _ => ∃ failure, outcome = .error failure := by
  have hfits := effect_fits x.rt c args (env.clock 1)
  rw [heffect] at hfits
  obtain ⟨handler, hhandler⟩ := storeHandler_of_durable x.rt Context.replay.inline hfits
  have hexec : c ≠ .exec := by
    rintro rfl
    cases hfits
  have hwrites := storeHandler_effect hhandler w.store args env
  rw [heffect] at hwrites
  obtain ⟨hstore, hanswer⟩ := hwrites
  obtain ⟨hrun, houtcome⟩ := @runCommand_eq x .replay env c ⟨c.text, args⟩ handler hhandler w
  have hexecute := @execute_replay x c hexec args value hdecode (fun _ => env) hvalid w
  refine ⟨(x.runCommand .replay env c ⟨c.text, args⟩ w).1,
    (x.runCommand .replay env c ⟨c.text, args⟩ w).2, hexecute, hrun.trans hstore, ?_⟩
  rw [houtcome]
  generalize w.store.mutate key m (env.after 2) = mutated at hanswer
  match mutated, hanswer with
  | (_, .ok evicted), hanswer =>
    obtain ⟨reply, hreply, -⟩ := hanswer
    exact ⟨_, by rw [hreply]; rfl⟩
  | (_, .error err), hanswer =>
    simp only at hanswer
    exact ⟨_, by rw [hanswer]; rfl⟩

/-- **Executing a DEL frame deletes its keys.** -/
theorem execute_delete {keys : List Bytes} (hkeys : keys ≠ []) {value : Value}
    (hdecode : decodeRequest x.rt value = .ok ⟨CommandName.del.text, keys⟩) (env : Env) (w : World) :
    ∃ w' result, x.executeDetailed .replay (fun _ => env) value w = (w', .ok result) ∧
      w'.store = (w.store.deleteMany keys (env.after 2)).1 := by
  have hvalid : CommandName.del.validate x.rt keys (env.clock 0) = .ok () := by
    match keys with
    | [] => exact absurd rfl hkeys
    | key :: rest => rfl
  obtain ⟨hstore, reply, hreply, -⟩ := deletes_handleDel w.store keys env hkeys
  obtain ⟨hrun, houtcome⟩ :=
    @runCommand_eq x .replay env .del ⟨CommandName.del.text, keys⟩ handleDel rfl w
  have hexecute := @execute_replay x .del (by decide) keys value hdecode (fun _ => env)
    hvalid w
  rw [hreply] at houtcome
  exact ⟨_, _, hexecute.trans (Prod.ext rfl houtcome), hrun.trans hstore⟩

/-- Execute frames in order, each in its own surroundings, as the loader and a replica do; an error
ends it. -/
def replay : List (Env × Value) → World → Option World
  | [], w => some w
  | (env, frame) :: frames, w =>
    match x.executeDetailed .replay (fun _ => env) frame w with
    | (w', .ok _) => replay frames w'
    | (_, .error _) => none

theorem replay_append (frames frames' : List (Env × Value)) (w : World) :
    x.replay (frames ++ frames') w = (x.replay frames w).bind (x.replay frames') := by
  induction frames generalizing w with
  | nil => rfl
  | cons frame frames ih =>
    rw [List.cons_append, replay, replay]
    split
    · exact ih _
    · rfl

theorem replay_cons {env : Env} {frame : Value} {w w' : World} {result : ExecuteResult}
    (h : x.executeDetailed .replay (fun _ => env) frame w = (w', .ok result))
    (frames : List (Env × Value)) : x.replay ((env, frame) :: frames) w = x.replay frames w' := by
  rw [replay, h]

theorem replay_cons_error {env : Env} {frame : Value} {w w' : World} {failure : Failure}
    (h : x.executeDetailed .replay (fun _ => env) frame w = (w', .error failure))
    (frames : List (Env × Value)) : x.replay ((env, frame) :: frames) w = none := by
  rw [replay, h]

end Executor

end Stash
