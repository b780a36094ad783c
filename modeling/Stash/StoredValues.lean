import Stash.Keyspace

/-!
# What every store satisfies

A property of stores that the primitives keep is kept by every operation: a write stores what it has
decided on, reading refreshes a stamp, everything else moves values around or removes them
(`Kept.reachable`).  An invariant of the stored values is such a property if every write gives a value
that satisfies it.

Two facts follow for a store that came about by operations: access stamps are readings of the clock,
and only strings have a deadline.
-/

namespace Stash

open GoMap Payload

namespace Store

/-- A property of stores that the primitives keep, as long as what they store has `P`. -/
structure Kept (P : ValueObject → Prop) (I : Store → Prop) : Prop where
  stored : ∀ {s : Store} {key : Bytes} {value : ValueObject}, I s → s.lookup key = some value → P value
  /-- only the keys and their counts matter -/
  congr : ∀ {s s' : Store}, I s → (∀ k, s'.lookup k = s.lookup k) →
    s'.keyKindCounts = s.keyKindCounts → I s'
  remove : ∀ {s : Store} (key : Bytes), I s → I (s.removeKeyLocked key)
  set : ∀ {s : Store} (key : Bytes) {value : ValueObject}, P value → I s → I (s.setKeyLocked key value)
  /-- a value is changed where it lies to one of its kind -/
  put : ∀ {s : Store} {key : Bytes} {old value : ValueObject}, s.lookup key = some old →
    value.payload.kind = old.payload.kind → P value → I s → I (s.put key value)

/-- What an action stores. -/
def WriteAction.stored {ρ : Type} : WriteAction ρ → Option ValueObject
  | .fail _ => none
  | .inPlace value _ => some value
  | .commit value _ => some value

theorem WriteAction.stored_map {ρ τ : Type} (f : ρ → τ) (action : WriteAction ρ) :
    (action.map f).stored = action.stored := by
  cases action <;> rfl

/-- What is written in place is of the kind of the value that lies there. -/
def WriteAction.SameKind {ρ : Type} (current : Option ValueObject) : WriteAction ρ → Prop
  | .inPlace value _ => ∃ old, current = some old ∧ value.payload.kind = old.payload.kind
  | _ => True

/-- The kind of a value stays when something is taken from it. -/
def TakesSameKind {ρ : Type} (fn : Payload → Except StorageError (Option (Payload × ρ))) : Prop :=
  ∀ payload left result, fn payload = .ok (some (left, result)) → left.kind = payload.kind

namespace Kept

variable {P : ValueObject → Prop} {I : Store → Prop} {s : Store} {ρ : Type}

section

variable (hI : Kept P I)

include hI

theorem publish (h : I s) : I s.publishExpiredKeys := by
  unfold publishExpiredKeys
  split
  · exact h
  · exact hI.congr h (fun _ => rfl) rfl

theorem deletion : KeptByDeletion I := by
  intro s key h
  unfold deleteKeyLocked deleteKeyWithSizeLocked
  split
  · exact h
  · simp only [*]
    refine hI.remove key ?_
    split
    · exact hI.congr h (fun _ => rfl) rfl
    · exact h

theorem foldl_removeKey {keys : List Bytes} (h : I s) : I (keys.foldl removeKeyLocked s) := by
  induction keys generalizing s with
  | nil => exact h
  | cons key keys ih => exact ih (hI.remove key h)

theorem recalculate (h : I s) (now : Int) (order : MapOrder Bytes) :
    I (s.recalculateUsedMemoryLocked now order) :=
  hI.congr (hI.foldl_removeKey h) (fun _ => rfl) rfl

theorem configureMaxMemory (h : I s) (limit sampleSize : Int) (env : Env) :
    I (s.configureMaxMemory limit sampleSize env) := by
  refine hI.publish ?_
  split
  · refine hI.recalculate ?_ _ _
    exact hI.congr h (fun _ => rfl) rfl
  · exact hI.congr h (fun _ => rfl) rfl

/-! ## Reads and writes -/

theorem commit (h : I s) (key : Bytes) (write : KeyWrite) {value : ValueObject} (hvalue : P value)
    (env : Env) : I (s.commit key write value env).1 := by
  unfold Store.commit
  split
  · have hensure := hI.deletion.ensure h
      (approximateValueObjectSize key value - sizeOfCurrent key write.current) [key] env
      (hI.recalculate h _ _)
    simp only
    split
    · rename_i hresult
      rw [hresult] at hensure
      exact hensure
    · rename_i hresult
      rw [hresult] at hensure
      exact hI.congr (hI.set key hvalue hensure) (fun _ => rfl) rfl
  · exact hI.set key hvalue h

theorem writeKey (h : I s) (key : Bytes) (env : Env) {fn : KeyWrite → WriteAction ρ}
    (haction : ∀ value ∈ (fn ⟨liveValue (s.lookup key) (env.now 0), env.clock 0,
      s.maxMemoryEnabled⟩).stored, P value)
    (hkind : (fn ⟨liveValue (s.lookup key) (env.now 0), env.clock 0,
      s.maxMemoryEnabled⟩).SameKind (liveValue (s.lookup key) (env.now 0))) :
    I (s.writeKey key env fn).1 := by
  have hprepared := hI.deletion.prepare h key (env.now 0)
  have hlookup := s.lookup_prepare key key (env.now 0)
  rw [if_pos rfl] at hlookup
  have hpublish : ∀ (b : Bool) (t : Store), I t → I (if b then t.publishExpiredKeys else t) := by
    intro b t ht
    cases b with
    | false => exact ht
    | true => exact hI.publish ht
  rw [writeKey_eq, Prod.map_fst]
  refine hpublish _ _ ?_
  generalize fn ⟨liveValue (s.lookup key) (env.now 0), env.clock 0, s.maxMemoryEnabled⟩ = action at *
  cases action with
  | fail err => exact hprepared
  | inPlace value result =>
    obtain ⟨old, hold, hkind⟩ := hkind
    exact hI.put (hlookup.trans hold) hkind (haction value rfl) hprepared
  | commit value result =>
    have hcommit := hI.commit hprepared key
      ⟨liveValue (s.lookup key) (env.now 0), env.clock 0, s.maxMemoryEnabled⟩
      (haction value rfl) (env.after 2)
    unfold perform
    simp only
    split
    · rename_i hresult
      rw [hresult] at hcommit
      exact hcommit
    · rename_i hresult
      rw [hresult] at hcommit
      exact hcommit

end

end Kept

end Store

/-! ## Runs -/

/-- A plan that gives values with `P` when it is given one. -/
def Plan.Keeps (P : ValueObject → Prop) (start : Instant) : Plan → Prop
  | .refuse _ => True
  | .through fn => ∀ accounting current, (∀ value, current = some value → P value) →
      ∀ value ∈ (fn ⟨current, start, accounting⟩).stored, P value
  | .take stamp _ fn => ∀ value, P value → ∀ payload result (hsound : payload.Sound),
      fn value.payload = .ok (some (payload, result)) → P ⟨payload, value.expiresAt, stamp, hsound⟩
  | .delete => True

/-- A plan that changes no kind where a value lies. -/
def Plan.SameKind (start : Instant) : Plan → Prop
  | .through fn => ∀ accounting current, (fn ⟨current, start, accounting⟩).SameKind current
  | .take _ _ fn => Store.TakesSameKind fn
  | _ => True

theorem Plan.sameKind_taking {ρ : Type} {start : Instant} {absent : ρ} {stamp : Int}
    {fn : Payload → Except StorageError (Option (Payload × ρ))} (h : Store.TakesSameKind fn)
    (datum : ρ → Datum) : (Plan.taking datum stamp absent fn).SameKind start := by
  intro payload left result htaken
  rcases hfn : fn payload with err | _ | ⟨taken, result'⟩
  all_goals
    change (fn payload).map _ = _ at htaken
    rw [hfn] at htaken
    cases htaken
  exact h payload taken result' hfn

/-- Only strings are written where they lie. -/
theorem Plan.sameKind_strings {ρ : Type} {start : Instant} {fn : Store.KeyWrite → Store.WriteAction ρ}
    (h : ∀ current accounting value result, fn ⟨current, start, accounting⟩ = .inPlace value result →
      value.payload.kind = .string ∧ ∃ old, current = some old ∧ old.payload.kind = .string)
    (datum : ρ → Datum) : (Plan.writing datum fn).SameKind start := by
  intro accounting current
  change ((fn ⟨current, start, accounting⟩).map datum).SameKind current
  cases hfn : fn ⟨current, start, accounting⟩ with
  | inPlace value result =>
    obtain ⟨hvalue, old, hold, hkind⟩ := h current accounting value result hfn
    exact ⟨old, hold, hvalue.trans hkind.symm⟩
  | _ => trivial

/-- **No write changes the kind of a value where it lies.** -/
theorem Mutation.plan_sameKind (m : Mutation) (env : Env) : (m.plan env).SameKind (env.clock 0) := by
  have hcommits : ∀ {ρ : Type} {fn : Store.KeyWrite → Store.WriteAction ρ} (datum : ρ → Datum),
      (∀ write value result, fn write ≠ .inPlace value result) →
        (Plan.writing datum fn).SameKind (env.clock 0) :=
    fun datum h => Plan.sameKind_strings (fun _ _ _ _ heq => absurd heq (h _ _ _)) datum
  unfold plan
  cases m with
  | set => exact hcommits _ fun _ _ _ h => by cases h
  | delete => trivial
  | increment =>
    refine Plan.sameKind_strings (fun current accounting value result h => ?_) _
    unfold Store.incrementAction at h
    grind [ValueObject.ofString, kind]
  | setBit =>
    simp only
    split
    · trivial
    · refine Plan.sameKind_strings (fun current accounting value result h => ?_) _
      unfold Store.setBitAction at h
      grind [ValueObject.ofString, kind]
  | pfAdd =>
    refine Plan.sameKind_strings (fun current accounting value result h => ?_) _
    unfold Store.pfAddAction at h
    grind [ValueObject.ofString, kind]
  | pop =>
    refine Plan.sameKind_taking (fun payload left result h => ?_) _
    rcases payload with _ | (_ | ⟨_, _⟩) | _ | _ | _ | _ <;> grind [kind, Store.popPayload]
  | popN | hDel | sRem =>
    simp only
    split
    · trivial
    · refine Plan.sameKind_taking (fun payload left result h => ?_) _
      rcases payload with _ | (_ | ⟨_, _⟩) | _ | _ | _ | _ <;>
        grind [kind, Store.popNPayload, Store.hDelPayload, Store.sRemPayload]
  | push | zAdd | xAdd | hSet | sAdd =>
    simp only
    split
    all_goals first
      | trivial
      | refine hcommits _ fun write value result h => ?_
        grind [Store.pushAction, Store.zAddAction, Store.xAddAction, Store.hSetAction, Store.sAddAction]

namespace Store

variable {P : ValueObject → Prop} {s : Store}

theorem Kept.write {I : Store → Prop} (hI : Kept P I) (h : I s) (key : Bytes) {m : Mutation} {env : Env}
    (hplan : (m.plan env).Keeps P (env.clock 0)) : I (s.write key m env).1 := by
  have hkind := m.plan_sameKind env
  rw [write_eq_carryOut]
  generalize m.plan env = plan at hplan hkind
  cases plan with
  | refuse err => exact h
  | through fn =>
    exact hI.writeKey h key env (hplan _ _ fun value hvalue =>
      hI.stored h (Option.filter_eq_some_iff.mp hvalue).1) (hkind _ _)
  | take stamp absent fn =>
    refine hI.deletion.shrinkKey h key env stamp absent fun value payload result hsound hlookup hfn => ?_
    have hput := hI.put hlookup (hkind _ _ _ hfn)
      (hplan value (hI.stored h hlookup) payload result hsound hfn) h
    simp only
    split
    · exact hI.congr hput (fun _ => rfl) rfl
    · exact hput
  | delete => exact hI.deletion.delete h key env

/-- **A property that the primitives keep holds in every store.** -/
theorem Kept.reachable {I : Store → Prop} (hI : Kept P I) (hs : s.Reachable)
    (hnew : ∀ hash, I (.newStore hash))
    (hreplace : ∀ (s : Store) {other : Store} (env : Env), I other → I (s.replaceWith other env))
    (hplan : ∀ (m : Mutation) (env : Env), (m.plan env).Keeps P (env.clock 0))
    (htouch : ∀ (t : Instant) value, P value → P (value.touch t.millis)) : I s := by
  induction hs with
  | new hash => exact hnew hash
  | step op env hs hother ih ihother =>
    cases op with
    | write key m => exact hI.write ih key (hplan m env)
    | read key q =>
      exact hI.deletion.read ih key q env fun value hvalue =>
        hI.put hvalue rfl (htouch (env.clock 0) value (hI.stored ih hvalue)) ih
    | pfCount keys =>
      exact hI.deletion.pfMerge ih _ env fun t h hvalue =>
        hI.put hvalue rfl (htouch t _ (hI.stored h hvalue)) h
    | deleteMany keys => exact hI.deletion.deleteMany ih keys env
    | snapshotAll | snapshotStrings | len | keyStats => exact ih
    | configureMaxMemory limit sampleSize => exact hI.configureMaxMemory ih limit sampleSize env
    | enforceMaxMemory =>
      exact hI.deletion.enforceMaxMemory ih env (hI.recalculate ih _ _) fun _ => hI.publish
    | evictExpired sampleSize =>
      exact hI.publish (hI.congr (hI.deletion.foldl ih) (fun _ => rfl) rfl)
    | replaceWith other => exact hreplace _ env (ihother other rfl)

/-! ## What the values satisfy -/

/-- All stored values satisfy `P`. -/
def Holds (P : ValueObject → Prop) (s : Store) : Prop :=
  ∀ key value, s.lookup key = some value → P value

theorem kept_holds : Kept P (Holds P) where
  stored h hvalue := h _ _ hvalue
  congr h hsame _ key value hvalue := h key value (by rwa [hsame] at hvalue)
  remove key h k value hvalue := by
    rw [lookup_removeKey] at hvalue
    split at hvalue
    · cases hvalue
    · exact h k value hvalue
  set key value hvalue h k value' hvalue' := by
    rw [lookup_setKey] at hvalue'
    split at hvalue'
    · exact Option.some.inj hvalue' ▸ hvalue
    · exact h k value' hvalue'
  put _ _ hvalue h k value' hvalue' := by
    rw [lookup_put] at hvalue'
    split at hvalue'
    · exact Option.some.inj hvalue' ▸ hvalue
    · exact h k value' hvalue'

/-- **An invariant of the values that every plan keeps holds in every store.** -/
theorem Reachable.holds (hs : s.Reachable)
    (hplan : ∀ (m : Mutation) (env : Env), (m.plan env).Keeps P (env.clock 0))
    (htouch : ∀ (t : Instant) value, P value → P (value.touch t.millis)) : s.Holds P := by
  refine kept_holds.reachable hs (fun hash key value hvalue => by cases hvalue) ?_ hplan htouch
  intro s other env h key value hvalue
  rw [lookup_replaceWith] at hvalue
  split at hvalue
  · exact h key value (Option.filter_eq_some_iff.mp hvalue).1
  · exact h key value hvalue

end Store

/-! ## Stamps -/

/-- The access stamp is a reading of the clock. -/
def ValueObject.Stamped (value : ValueObject) : Prop :=
  ∃ t : Instant, value.lastAccessedAt = t.millis

namespace Store

/-- **Every plan stamps what it stores.** -/
theorem keeps_plan (m : Mutation) (env : Env) :
    (m.plan env).Keeps ValueObject.Stamped (env.clock 0) := by
  have hwriting : ∀ {ρ : Type} {fn : KeyWrite → WriteAction ρ} (datum : ρ → Datum),
      (∀ write, ∀ value ∈ (fn write).stored, value.lastAccessedAt = write.now.millis ∨
        value.lastAccessedAt = env.now 1) →
        (Plan.writing datum fn).Keeps ValueObject.Stamped (env.clock 0) := by
    intro ρ fn datum h accounting current _ value hvalue
    rw [WriteAction.stored_map] at hvalue
    exact (h _ value hvalue).elim (fun h => ⟨_, h⟩) fun h => ⟨env.clock 1, h⟩
  unfold Mutation.plan
  cases m with
  | delete => trivial
  | set | increment | pfAdd =>
    refine hwriting _ fun write value h => ?_
    simp only [setAction, incrementAction, pfAddAction] at h
    grind [WriteAction.stored, ValueObject.ofString]
  | pop => exact fun _ _ _ _ _ _ => ⟨env.clock 1, rfl⟩
  | popN | hDel =>
    simp only
    split
    · trivial
    · exact fun _ _ _ _ _ _ => ⟨env.clock 1, rfl⟩
  | sRem =>
    simp only
    split
    · trivial
    · exact fun _ _ _ _ _ _ => ⟨env.clock 0, rfl⟩
  | setBit | push | zAdd | xAdd | hSet | sAdd =>
    simp only
    split
    all_goals first
      | trivial
      | refine hwriting _ fun write value h => ?_
        simp only [setBitAction, pushAction, zAddAction, xAddAction, hSetAction, sAddAction] at h
        grind [WriteAction.stored, ValueObject.ofString]

theorem Reachable.stamped {s : Store} (hs : s.Reachable) : s.Holds ValueObject.Stamped :=
  hs.holds keeps_plan fun t _ _ => ⟨t, rfl⟩

end Store

end Stash
