import Stash.CommutingLog
import Stash.Transactions

/-!
# What the frames of a log mean

A durability frame stands for a record: a mutation of one key, or a deletion of keys.  Without
deadlines, memory limit and automatic stream IDs a record is an update of the keyspace that no clock
enters, and executing the frame makes this update at any time (`Denotes`).  A log of such frames
therefore runs as the log of its records (`replay_of_denotes`).
-/

namespace Stash

open DecimalText GoMap Handlers List Function

/-! ## Deadlines of entries -/

variable {e : Entry} {change : Logical → Except StorageError Logical} {current : Option Entry}
    {m : Mutation} {key : Bytes} {α : Type} {c : CommandName} {args : List Bytes} {rt : Runtime}

/-- The entry that a change leaves: a fresh one, or the old one with another value. -/
theorem changeEntry_ok {fresh : Except StorageError Logical}
    (h : changeEntry current fresh change = .ok (some e)) :
    (current = none ∧ ∃ value, fresh = .ok value ∧ e = ⟨value, 0⟩) ∨
      ∃ c value, current = some c ∧ change c.value = .ok value ∧ e = ⟨value, c.expiresAt⟩ := by
  cases current with
  | none =>
    obtain ⟨value, hvalue, heq⟩ := map_ok h
    exact .inl ⟨rfl, value, hvalue, (Option.some.inj heq).symm⟩
  | some c =>
    obtain ⟨value, hvalue, heq⟩ := map_ok h
    exact .inr ⟨c, value, rfl, hvalue, (Option.some.inj heq).symm⟩

/-- The entry that is left after taking something is the old one with another value. -/
theorem shrinkEntry_ok (h : shrinkEntry current change = .ok (some e)) :
    ∃ c value, current = some c ∧ change c.value = .ok value ∧ e = ⟨value, c.expiresAt⟩ := by
  cases current with
  | none => cases h
  | some c =>
    obtain ⟨value, hvalue, heq⟩ := map_ok h
    split at heq
    · cases heq
    · exact ⟨c, value, rfl, hvalue, (Option.some.inj heq).symm⟩

theorem changeEntry_expiresAt {fresh : Except StorageError Logical}
    (h : changeEntry current fresh change = .ok (some e)) :
    e.expiresAt = 0 ∨ ∃ c, current = some c ∧ e.expiresAt = c.expiresAt := by
  rcases changeEntry_ok h with ⟨-, _, -, rfl⟩ | ⟨c, _, hc, -, rfl⟩
  · exact .inl rfl
  · exact .inr ⟨c, hc, rfl⟩

theorem shrinkEntry_expiresAt (h : shrinkEntry current change = .ok (some e)) :
    ∃ c, current = some c ∧ e.expiresAt = c.expiresAt := by
  obtain ⟨c, _, hc, -, rfl⟩ := shrinkEntry_ok h
  exact ⟨c, hc, rfl⟩

/-- **The deadline of an entry** is the one its mutation set or the one it had. -/
theorem Mutation.apply_expiresAt {now : Int} (h : m.apply now current = .ok (some e)) :
    e.expiresAt = m.deadline ∨ ∃ c, current = some c ∧ e.expiresAt = c.expiresAt := by
  cases m with
  | set value expiresAt =>
    cases h
    exact .inl rfl
  | delete => cases h
  | increment | pfAdd =>
    exact changeEntry_expiresAt h
  | setBit offset bit =>
    obtain ⟨-, -, h⟩ := bind_ok h
    exact changeEntry_expiresAt h
  | push | zAdd | hSet | sAdd =>
    simp only [apply] at h
    split at h
    · cases h
    · exact changeEntry_expiresAt h
  | xAdd rawID values =>
    simp only [apply] at h
    split at h
    · exact changeEntry_expiresAt h
    · cases h
  | pop left => exact .inr (shrinkEntry_expiresAt h)
  | popN | hDel | sRem =>
    simp only [apply] at h
    split at h
    · cases h
    · exact .inr (shrinkEntry_expiresAt h)

/-- No infinite score is added. -/
def Mutation.FiniteScores : Mutation → Prop
  | zAdd entries => ∀ entry ∈ entries, entry.score.Finite
  | _ => True

/-! ## Records -/

/-- What a frame of the log stands for. -/
inductive LogRecord where
  | write (key : Bytes) (m : Mutation)
  | delete (keys : List Bytes)

namespace LogRecord

/-- The update of a keyspace without deadlines. -/
noncomputable def act : LogRecord → Keyspace → Option Keyspace
  | write key m, ks =>
    match m.apply 0 (ks key) with
    | .ok e => some (update ks key e)
    | .error _ => none
  | delete keys, ks => some fun k => if k ∈ keys then none else ks k

/-- The keys of a record. -/
def keys : LogRecord → List Bytes
  | write key _ => [key]
  | delete keys => keys

/-- The record means the same at any time, sets no deadline and adds no infinite score. -/
def Plain : LogRecord → Prop
  | write _ m => m.Timeless ∧ m.deadline = 0 ∧ m.FiniteScores
  | delete _ => True

variable {ks ks' : Keyspace}

theorem act_write {key : Bytes} {m : Mutation} (h : (write key m).act ks = some ks') :
    ∃ e, m.apply 0 (ks key) = .ok e ∧ ks' = update ks key e := by
  unfold act at h
  simp only at h
  split at h
  · rename_i e heffect
    exact ⟨e, heffect, (Option.some.inj h).symm⟩
  · cases h

/-- **A record reads and writes its keys only.** -/
theorem local_act (record : LogRecord) : CommutingLog.Local record.act { k | k ∈ record.keys } := by
  cases record with
  | write key m =>
    refine ⟨fun ks ks' h k hk => ?_, fun ks ks₁ ks' hsame h => ?_⟩
    · obtain ⟨e, -, rfl⟩ := act_write h
      exact update_of_ne (fun heq => hk (mem_singleton.mpr heq)) _ _
    · obtain ⟨e, heffect, rfl⟩ := act_write h
      rw [← hsame key (mem_singleton_self key)] at heffect
      refine ⟨update ks₁ key e, by simp only [act, heffect], fun k hk => ?_⟩
      obtain rfl := mem_singleton.mp hk
      rw [update_self, update_self]
  | delete keys =>
    refine ⟨fun ks ks' h k hk => ?_, fun ks ks₁ ks' hsame h => ⟨_, rfl, fun k hk => ?_⟩⟩
    · cases h
      exact if_neg hk
    · cases h
      exact (if_pos hk).trans (if_pos hk).symm

theorem act_ageless {record : LogRecord} (hplain : record.Plain) {k : Bytes}
    (hks : Ageless ks k) (h : record.act ks = some ks') : Ageless ks' k := by
  intro e he
  cases record with
  | write key m =>
    obtain ⟨entry, heffect, rfl⟩ := act_write h
    by_cases hk : k = key
    · subst hk
      rw [update_self] at he
      rw [he] at heffect
      rcases Mutation.apply_expiresAt heffect with hset | ⟨c, hc, hkept⟩
      · exact hset.trans hplain.2.1
      · exact hkept.trans (hks c hc)
    · rw [update_of_ne hk] at he
      exact hks e he
  | delete keys =>
    cases h
    simp only at he
    split at he
    · cases he
    · exact hks e he

/-- Records of a log without deadlines give a keyspace without deadlines. -/
theorem run_noDeadlines {records : List LogRecord} (hplain : ∀ record ∈ records, record.Plain)
    (hks : NoDeadlines ks) (h : CommutingLog.run act records ks = some ks') : NoDeadlines ks' := by
  induction records generalizing ks with
  | nil =>
    cases h
    exact hks
  | cons record records ih =>
    obtain ⟨middle, hmiddle, hrest⟩ := Option.bind_eq_some_iff.mp h
    refine ih (fun r hr => hplain r (mem_cons_of_mem _ hr)) (fun k => ?_) hrest
    exact act_ageless (hplain record mem_cons_self) (hks k) hmiddle

theorem independent_of_disjoint {a b : LogRecord} (h : ∀ k ∈ a.keys, k ∉ b.keys) :
    CommutingLog.Independent act a b :=
  a.local_act.commute b.local_act h

end LogRecord

/-! ## Frames -/

/-- The keys a request is about: all arguments of a DEL, otherwise the first one. -/
def Request.keys (request : Request) : List Bytes :=
  if request.name = CommandName.del.text then request.args else request.args.take 1

/-- The keys a frame is about. -/
def frameKeys (rt : Runtime) (frame : Value) : List Bytes :=
  match decodeRequest rt frame with
  | .ok request => request.keys
  | .error _ => []

/-- A frame stands for a record: executed at any time, it makes the record's update. -/
structure Denotes (rt : Runtime) (frame : Value) (record : LogRecord) : Prop where
  plain : record.Plain
  keys : frameKeys rt frame = record.keys
  execute : ∀ y : Executor, y.rt = rt → ∀ env (w : World), w.store.maxMemoryEnabled = false →
    (∀ k ∈ record.keys, Ageless w.store.view k) → ∀ ks, record.act w.store.view = some ks →
      ∃ w' result, y.executeDetailed .replay (fun _ => env) frame w = (w', .ok result) ∧
        w'.store.view = ks ∧ w'.store.maxMemoryEnabled = false

/-- What a mutation says about its command. -/
structure MutationOf (c : CommandName) (args : List Bytes) (key : Bytes) (m : Mutation) : Prop where
  ne_del : c ≠ .del
  first : args.take 1 = [key]
  set : ∀ value expiresAt, m = .set value expiresAt → c = .set
  xAdd : ∀ rawID values, m = .xAdd rawID values → c = .xAdd ∧ args = key :: rawID :: values

theorem effect_write {now : Instant} (h : c.effect rt args now = .write key m) :
    MutationOf c args key m := by
  cases c with
  | del | blPop =>
    simp only [CommandName.effect] at h
    split at h <;> cases h
  | set =>
    simp only [CommandName.effect] at h
    split at h
    · obtain ⟨rfl, a, -, rfl⟩ := ofParsed_write h
      exact ⟨by decide, rfl, fun _ _ _ => rfl, fun _ _ hm => by cases hm⟩
    · cases h
  | setBit | zAdd | geoAdd =>
    simp only [CommandName.effect] at h
    split at h
    · obtain ⟨rfl, a, -, rfl⟩ := ofParsed_write h
      exact ⟨by decide, rfl, (fun _ _ hm => by cases hm), fun _ _ hm => by cases hm⟩
    · cases h
  | lPop | rPop =>
    simp only [CommandName.effect, popEffect] at h
    split at h
    · cases h
      exact ⟨by decide, rfl, (fun _ _ hm => by cases hm), fun _ _ hm => by cases hm⟩
    · obtain ⟨rfl, a, -, rfl⟩ := ofParsed_write h
      exact ⟨by decide, rfl, (fun _ _ hm => by cases hm), fun _ _ hm => by cases hm⟩
    · cases h
  | xAdd =>
    simp only [CommandName.effect] at h
    split at h
    · cases h
      refine ⟨by decide, rfl, (fun _ _ hm => by cases hm), fun _ _ hm => ?_⟩
      cases hm
      exact ⟨rfl, rfl⟩
    · cases h
  | pfAdd | incr | lPush | rPush | hSet | hDel | sAdd | sRem =>
    simp only [CommandName.effect, pushEffect] at h
    split at h
    · cases h
      exact ⟨by decide, rfl, (fun _ _ hm => by cases hm), fun _ _ hm => by cases hm⟩
    · cases h
  | _ => cases h

theorem CommandName.text_inj {c' : CommandName} (h : c.text = c'.text) : c = c' := by
  have hc := c.ofText_text
  rw [h, c'.ofText_text] at hc
  exact (Option.some.inj hc).symm

theorem Request.keys_of_ne_del (hc : c ≠ .del) (args : List Bytes) :
    Request.keys ⟨c.text, args⟩ = args.take 1 :=
  if_neg fun h => hc (CommandName.text_inj h)

theorem parseScoreMembers_finite {entries : List ZSetEntry}
    (h : parseScoreMembers rt args = .ok entries) : ∀ entry ∈ entries, entry.score.Finite := by
  induction args using parseScoreMembers.induct generalizing entries with
  | case1 raw member rest ih =>
    rw [parseScoreMembers] at h
    obtain ⟨score, hscore, h⟩ := bind_ok h
    obtain ⟨others, hrest, h⟩ := bind_ok h
    cases h
    intro entry hentry
    rcases mem_cons.mp hentry with rfl | hentry
    · unfold parseFloatArgument at hscore
      split at hscore
      · cases hscore
      · split at hscore
        · rename_i hfinite
          cases hscore
          exact hfinite
        · cases hscore
    · exact ih hrest entry hentry
  | case2 args hargs =>
    rw [parseScoreMembers] at h
    · cases h
      exact fun _ hentry => by cases hentry
    · exact hargs

theorem parseGeoMembers_finite {entries : List ZSetEntry}
    (h : parseGeoMembers rt args = .ok entries) : ∀ entry ∈ entries, entry.score.Finite := by
  induction args using parseGeoMembers.induct generalizing entries with
  | case1 longitude latitude member rest ih =>
    rw [parseGeoMembers] at h
    obtain ⟨position, -, h⟩ := bind_ok h
    obtain ⟨others, hrest, h⟩ := bind_ok h
    cases h
    intro entry hentry
    rcases mem_cons.mp hentry with rfl | hentry
    · exact rt.geoScore_finite _ _
    · exact ih hrest entry hentry
  | case2 args hargs =>
    rw [parseGeoMembers] at h
    · cases h
      exact fun _ hentry => by cases hentry
    · exact hargs

theorem effect_finite {now : Instant} (h : c.effect rt args now = .write key m) : m.FiniteScores :=
    by
  cases m with
  | zAdd entries =>
    cases c with
    | zAdd =>
      simp only [CommandName.effect] at h
      split at h
      · obtain ⟨-, parsed, hparse, heq⟩ := ofParsed_write h
        cases heq
        exact parseScoreMembers_finite hparse
      · cases h
    | geoAdd =>
      simp only [CommandName.effect] at h
      split at h
      · obtain ⟨-, parsed, hparse, heq⟩ := ofParsed_write h
        cases heq
        exact parseGeoMembers_finite hparse
      · cases h
    | set | setBit =>
      simp only [CommandName.effect, StoreEffect.ofParsed] at h
      split at h
      · split at h <;> cases h
      · cases h
    | lPop | rPop =>
      simp only [CommandName.effect, popEffect, StoreEffect.ofParsed] at h
      split at h
      · cases h
      · split at h <;> cases h
      · cases h
    | pfAdd | del | incr | lPush | rPush | blPop | xAdd | hSet | hDel | sAdd | sRem =>
      simp only [CommandName.effect, pushEffect] at h
      split at h <;> cases h
    | _ => cases h
  | _ => trivial

/-- **A frame of a mutation stands for the mutation.** -/
theorem denotes_write {frame : Value} (hdecode : decodeRequest rt frame = .ok ⟨c.text, args⟩)
    (hvalid : ∀ now, c.validate rt args now = .ok ())
    (heffect : ∀ now, c.effect rt args now = .write key m) (htimeless : m.Timeless)
    (hdeadline : m.deadline = 0) : Denotes rt frame (.write key m) := by
  have hof := effect_write (heffect ⟨0, by decide⟩)
  refine ⟨⟨htimeless, hdeadline, effect_finite (heffect ⟨0, by decide⟩)⟩, ?_,
    fun y hy env w hplain hdead ks hact => ?_⟩
  · simp only [frameKeys, hdecode, Request.keys_of_ne_del hof.ne_del, hof.first]
    rfl
  · subst hy
    obtain ⟨e, happly, rfl⟩ := LogRecord.act_write hact
    -- no clock and no deadline: the operation is handed the entry itself
    have hkey : Ageless w.store.view key := hdead key (mem_singleton_self key)
    rw [m.apply_timeless htimeless 0 ((env.after 2).now 0), ← hkey.liveEntry
      ((env.after 2).now 0)] at happly
    obtain ⟨hok, hview⟩ := (mutate_acts hplain key m (env.after 2)).of_apply happly
    obtain ⟨w', outcome, hexecute, hstore, houtcome⟩ :=
      y.execute_write hdecode (hvalid _) (heffect (env.clock 1)) w
    rw [hok] at houtcome
    obtain ⟨result, rfl⟩ := houtcome
    refine ⟨w', result, hexecute, by rw [hstore, hview], ?_⟩
    rw [hstore]
    have hlimit := (w.store.mutate_spec key m (env.after 2)).1
    exact (Store.enabled_of_eq hlimit).trans hplain

/-- **A DEL frame stands for the deletion of its keys.** -/
theorem denotes_delete (rt : Runtime) {keys : List Bytes} (hkeys : keys ≠ []) :
    Denotes rt (deleteFrame keys) (.delete keys) := by
  refine ⟨trivial, ?_, fun y hy env w hplain hdead ks hact => ?_⟩
  · simp only [frameKeys, decode_deleteFrame]
    exact if_pos rfl
  · cases hact
    obtain ⟨w', result, hexecute, hstore⟩ :=
      y.execute_delete hkeys (decode_deleteFrame y.rt keys) env w
    obtain ⟨hlookup, hlimit⟩ := w.store.deleteMany_spec keys (env.after 2)
    refine ⟨w', result, hexecute, ?_, ?_⟩
    · rw [hstore]
      funext k
      simp only [Store.view, hlookup k]
      split <;> rfl
    · rw [hstore]
      exact (Store.enabled_of_eq hlimit).trans hplain

theorem exists_frame {β : Type} {R : α → β → Prop} {frames : List α} {records : List β}
    (h : List.Forall₂ R frames records) {record : β}
    (hrecord : record ∈ records) : ∃ frame ∈ frames, R frame record := by
  induction h with
  | nil => cases hrecord
  | cons hfirst _ ih =>
    rcases mem_cons.mp hrecord with rfl | hrecord
    · exact ⟨_, mem_cons_self, hfirst⟩
    · obtain ⟨frame, hframe, hdenotes⟩ := ih hrecord
      exact ⟨frame, mem_cons_of_mem _ hframe, hdenotes⟩

theorem split_frames {β : Type} {R : α → β → Prop} {first rest : List α} {records : List β}
    (h : List.Forall₂ R (first ++ rest) records) :
    ∃ records₁ records₂, records = records₁ ++ records₂ ∧ List.Forall₂ R first records₁ ∧
      List.Forall₂ R rest records₂ :=
  ⟨_, _, (take_append_drop first.length records).symm,
    by simpa only [take_left] using forall₂_take first.length h,
    by simpa only [drop_left] using forall₂_drop first.length h⟩

/-- **Executing frames runs their records**, at any readings of the clock, as long as their keys hold
nothing with a deadline. -/
theorem replay_of_denotes {y : Executor} {frames : List Value} {records : List LogRecord}
    (hdenotes : List.Forall₂ (Denotes y.rt) frames records) {logged : List (Env × Value)}
    (hlogged : logged.map Prod.snd = frames) {w : World} (hplain : w.store.maxMemoryEnabled = false)
    (hdead : ∀ record ∈ records, ∀ k ∈ record.keys, Ageless w.store.view k) {ks : Keyspace}
    (hrun : CommutingLog.run LogRecord.act records w.store.view = some ks) :
    ∃ w', y.replay logged w = some w' ∧ w'.store.view = ks ∧ w'.store.maxMemoryEnabled = false := by
  induction hdenotes generalizing logged w with
  | nil =>
    obtain rfl := map_eq_nil_iff.mp hlogged
    exact ⟨w, rfl, Option.some.inj hrun, hplain⟩
  | @cons frame record frames records hfirst _ ih =>
    obtain ⟨⟨env, frame'⟩, rest, rfl, rfl, hrest⟩ := map_eq_cons_iff.mp hlogged
    obtain ⟨middle, hmiddle, hrun⟩ := Option.bind_eq_some_iff.mp hrun
    obtain ⟨w₁, result, hexecute, hview, hplain₁⟩ :=
      hfirst.execute y rfl env w hplain (hdead record mem_cons_self) middle hmiddle
    rw [← hview] at hmiddle hrun
    have hdead₁ : ∀ r ∈ records, ∀ k ∈ r.keys, Ageless w₁.store.view k := fun r hr k hk =>
      LogRecord.act_ageless hfirst.plain (hdead r (mem_cons_of_mem _ hr) k hk) hmiddle
    obtain ⟨w', hreplay, hfinal⟩ := ih hrest hplain₁ hdead₁ hrun
    exact ⟨w', (y.replay_cons hexecute rest).trans hreplay, hfinal⟩

end Stash
