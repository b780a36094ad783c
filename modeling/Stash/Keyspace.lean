import Stash.StoreRuns

/-!
# The keyspace as a client sees it

A keyspace maps keys to logical values with deadlines.  Every write of the store is a `Mutation`
of one key, and a mutation is a partial function on the live entry of its key: encodings, map
orders, access stamps and the clock readings other than the one that decides about expiry do not
enter into it.  The main result is that, without a memory limit, each operation of the store does
to the view of the store what its mutation says (`mutate_acts`).
-/

namespace Stash

open DecimalText GoMap List Function Store HashRep Payload

/-- What is stored under each key. -/
abbrev Keyspace := Bytes → Option Entry

/-- The keyspace of a store. -/
def Store.view (s : Store) : Keyspace :=
  fun key => (s.lookup key).map ValueObject.entry

/-- An entry as long as its time is not over. -/
def liveEntry (e : Option Entry) (now : Int) : Option Entry :=
  e.filter fun e => !isExpired e.expiresAt now

/-- The live part of a keyspace. -/
def Keyspace.liveAt (ks : Keyspace) (now : Int) : Keyspace :=
  fun key => liveEntry (ks key) now

/-- The logical values that are live at a moment. -/
def Keyspace.valuesAt (ks : Keyspace) (t : Int) : Bytes → Option Logical :=
  fun key => (ks.liveAt t key).map Entry.value

variable {a b ks : Keyspace} {key : Bytes} {s : Store} {now : Int}
    {effect : Option Entry → Except StorageError (Option Entry)} {err : StorageError}
    {result : Store × Except StorageError (List Bytes)} {env : Env} {ρ : Type}
    {change : Logical → Except StorageError Logical}

theorem Keyspace.valuesAt_of_some {e : Entry} (h : ks key = some e) (t : Int) :
    ks.valuesAt t key = if isExpired e.expiresAt t = true then none else some e.value := by
  unfold valuesAt liveAt
  rw [h, liveEntry, Option.filter_some]
  cases isExpired e.expiresAt t <;> rfl

theorem Keyspace.valuesAt_of_none (h : ks key = none) (t : Int) : ks.valuesAt t key = none := by
  unfold valuesAt liveAt
  rw [h]
  rfl

/-- Change the entry of a key, or make one. -/
def changeEntry (current : Option Entry) (fresh : Except StorageError Logical)
    (change : Logical → Except StorageError Logical) : Except StorageError (Option Entry) :=
  match current with
  | none => fresh.map fun value => some ⟨value, 0⟩
  | some e => (change e.value).map fun value => some ⟨value, e.expiresAt⟩

/-- A collection without elements. -/
def Logical.Empty : Logical → Prop
  | .string _ => False
  | .list items => items = []
  | .zset entries => entries = []
  | .stream entries => entries = []
  | .hash fields => ∀ field, fields field = none
  | .set members => ∀ member, members member = false

theorem Payload.Sound.not_empty {payload : Payload} (h : payload.Sound) :
    ¬payload.logical.Empty := by
  cases payload with
  | string data => exact fun hempty => hempty
  | list items => exact h
  | zset rep => exact h
  | stream value => exact h.1
  | hash rep => exact fun hempty => h ((len_eq_zero_iff rep).mpr hempty)
  | set rep => exact fun hempty => h ((SetRep.len_eq_zero_iff rep).mpr hempty)

theorem Store.view_not_empty {e : Entry} (h : s.view key = some e) : ¬e.value.Empty := by
  obtain ⟨value, -, rfl⟩ := Option.map_eq_some_iff.mp h
  exact value.sound.not_empty

open Classical in
/-- Take something from the entry of a key; an empty collection is no entry. -/
noncomputable def shrinkEntry (current : Option Entry)
    (change : Logical → Except StorageError Logical) : Except StorageError (Option Entry) :=
  match current with
  | none => .ok none
  | some e =>
    (change e.value).map fun value => if value.Empty then none else some ⟨value, e.expiresAt⟩

/-- A change of strings. -/
def onString (f : Bytes → Except StorageError Bytes) : Logical → Except StorageError Logical
  | .string data => (f data).map .string
  | _ => .error .wrongType

/-- A change of lists. -/
def onList (f : List Bytes → List Bytes) : Logical → Except StorageError Logical
  | .list items => .ok (.list (f items))
  | _ => .error .wrongType

namespace Mutation

/-- **What a mutation does to the live entry of its key.** -/
noncomputable def apply (m : Mutation) (now : Int) (current : Option Entry) :
    Except StorageError (Option Entry) :=
  match m with
  | set value expiresAt => .ok (some ⟨.string value, expiresAt⟩)
  | increment =>
    changeEntry current (.ok (.string (ascii "1")))
      (onString fun data => (incrementedValue data).map formatInt)
  | setBit offset bit => do
    validateBitmapArguments offset bit
    changeEntry current (.ok (.string (setBitPayload [] offset bit)))
      (onString fun data => .ok (setBitPayload data offset bit))
  | pfAdd elements =>
    changeEntry current (.ok (.string (pfAddNew elements)))
      (onString fun data => (pfAddExisting data elements).map Prod.fst)
  | push left values =>
    if values = [] then .error .syntaxError
    else
      changeEntry current (.ok (.list (pushItems left [] values)))
        (onList fun items => pushItems left items values)
  | pop left =>
    shrinkEntry current (onList fun items => if left then items.tail else items.dropLast)
  | popN left count =>
    if count < 0 then .error .syntaxError
    else
      shrinkEntry current (onList fun items =>
        if left then items.drop count.toNat else items.take (items.length - count.toNat))
  | zAdd entries =>
    if entries = [] then .error .syntaxError
    else
      changeEntry current (.ok (.zset (zsetOfEntries entries))) fun
        | .zset old => .ok (.zset (entries.foldl zsetAddEntry old))
        | _ => .error .wrongType
  | xAdd rawID values =>
    if Payload.PairedValues values then
      changeEntry current ((streamAdd [] rawID values now).map .stream) fun
        | .stream old => (streamAdd old rawID values now).map .stream
        | _ => .error .wrongType
    else .error .syntaxError
  | hSet pairs =>
    if pairs = [] then .error .syntaxError
    else
      changeEntry current (.ok (.hash (assign (fun _ => none) pairs))) fun
        | .hash old => .ok (.hash (assign old pairs))
        | _ => .error .wrongType
  | hDel fields =>
    if fields = [] then .error .syntaxError
    else
      shrinkEntry current fun
        | .hash old => .ok (.hash (unassign old fields))
        | _ => .error .wrongType
  | sAdd members =>
    if members = [] then .error .syntaxError
    else
      changeEntry current (.ok (.set fun member => decide (member ∈ members))) fun
        | .set old => .ok (.set fun member => old member || decide (member ∈ members))
        | _ => .error .wrongType
  | sRem members =>
    if members = [] then .error .syntaxError
    else
      shrinkEntry current fun
        | .set old => .ok (.set fun member => old member && !decide (member ∈ members))
        | _ => .error .wrongType
  | delete => .ok none

/-- Only automatic stream IDs depend on the clock. -/
def Timeless : Mutation → Prop
  | xAdd rawID _ => rawID ≠ ascii "*"
  | _ => True

theorem apply_timeless {m : Mutation} (h : m.Timeless) (now now' : Int)
    (current : Option Entry) : m.apply now current = m.apply now' current := by
  cases m with
  | xAdd rawID values =>
    have hadd : ∀ entries,
        streamAdd entries rawID values now = streamAdd entries rawID values now' :=
      fun entries => congrArg (Except.map _) (admitID_explicit h _ now now')
    simp only [apply, hadd]
  | _ => rfl

end Mutation

/-! ## Fading -/

/-- `after` is `before` without some of the keys whose time is over. -/
def Fades (now : Int) (before after : Keyspace) : Prop :=
  ∀ key, after key = before key ∨
    after key = none ∧ ∃ e, before key = some e ∧ isExpired e.expiresAt now = true

theorem Fades.refl (now : Int) (ks : Keyspace) : Fades now ks ks :=
  fun _ => .inl rfl

theorem Fades.mono {later : Int} (hle : now ≤ later) (h : Fades now a b) : Fades later a b := by
  intro key
  rcases h key with hb | ⟨hb, e, he, hexpired⟩
  · exact .inl hb
  · exact .inr ⟨hb, e, he, isExpired_mono hle hexpired⟩

theorem Fades.trans {c : Keyspace} (h : Fades now a b) (h' : Fades now b c) : Fades now a c := by
  intro key
  rcases h' key with hc | ⟨hc, e, he, hexpired⟩
  · rw [hc]
    exact h key
  · rcases h key with hb | ⟨hb, -⟩
    · exact .inr ⟨hc, e, hb ▸ he, hexpired⟩
    · rw [hb] at he
      cases he

theorem Fades.liveAt {later : Int} (hle : now ≤ later) (h : Fades now a b) :
    b.liveAt later = a.liveAt later := by
  funext key
  unfold Keyspace.liveAt liveEntry
  rcases h key with hb | ⟨hb, e, he, hexpired⟩
  · rw [hb]
  · rw [hb, he, Option.filter_some, isExpired_mono hle hexpired]
    rfl

/-- The key holds nothing with a deadline. -/
def Ageless (ks : Keyspace) (key : Bytes) : Prop :=
  ∀ e, ks key = some e → e.expiresAt = 0

theorem Ageless.liveEntry {key : Bytes} (h : Ageless ks key) (now : Int) :
    liveEntry (ks key) now = ks key := by
  unfold Stash.liveEntry
  cases hkey : ks key with
  | none => rfl
  | some e =>
    rw [Option.filter_some, h e hkey, isExpired_zero]
    rfl

/-- No key has a deadline. -/
def NoDeadlines (ks : Keyspace) : Prop :=
  ∀ key e, ks key = some e → e.expiresAt = 0

theorem NoDeadlines.liveEntry (h : NoDeadlines ks) (key : Bytes) (now : Int) :
    liveEntry (ks key) now = ks key :=
  Ageless.liveEntry (h key) now

theorem NoDeadlines.eq_of_fades (h : NoDeadlines a) (hfades : Fades now a b) : b = a := by
  funext key
  rcases hfades key with hb | ⟨-, e, he, hexpired⟩
  · exact hb
  · rw [h key e he, isExpired_zero] at hexpired
    cases hexpired

/-! ## The operations refine the mutations -/

/-- An operation on `key` of `s` at `now` acts as `effect` says: on success the key has the new
entry, on an error nothing but a key past its deadline is gone. -/
def Acts (s : Store) (key : Bytes) (now : Int)
    (effect : Option Entry → Except StorageError (Option Entry))
    (result : Store × Except StorageError (List Bytes)) : Prop :=
  match effect (liveEntry (s.view key) now) with
  | .ok e => result.2 = .ok [] ∧ result.1.view = update s.view key e
  | .error err => result.2 = .error err ∧ Fades now s.view result.1.view

section

variable (h : Acts s key now effect result)
include h

/-- An operation that failed changed nothing but a key past its deadline. -/
theorem Acts.fades (hresult : result.2 = .error err) : Fades now s.view result.1.view := by
  unfold Acts at h
  split at h
  · rw [h.1] at hresult
    cases hresult
  · exact h.2

/-- An operation that succeeded put the entry of its effect under its key. -/
theorem Acts.entry {evicted : List Bytes} (hresult : result.2 = .ok evicted) :
    ∃ e, effect (liveEntry (s.view key) now) = .ok e ∧ evicted = [] ∧
      result.1.view = update s.view key e := by
  unfold Acts at h
  split at h
  · rename_i e heffect
    exact ⟨e, heffect, Except.ok.inj (hresult.symm.trans h.1), h.2⟩
  · rw [h.1] at hresult
    cases hresult

theorem Acts.of_apply {e : Option Entry} (heffect : effect (liveEntry (s.view key) now) = .ok e) :
    result.2 = .ok [] ∧ result.1.view = update s.view key e := by
  unfold Acts at h
  rw [heffect] at h
  exact h

end

/-- The entry an operation leaves, or its error. -/
def Store.WriteAction.outcome {ρ : Type} :
    Store.WriteAction ρ → Except StorageError (Option Entry)
  | .fail err => .error err
  | .inPlace value _ => .ok (some value.entry)
  | .commit value _ => .ok (some value.entry)

theorem map_entry_liveValue (value : Option ValueObject) (now : Int) :
    (liveValue value now).map ValueObject.entry = liveEntry (value.map ValueObject.entry) now := by
  cases value with
  | none => rfl
  | some value =>
    rw [liveValue, Option.map_some, liveEntry, Option.filter_some, Option.filter_some]
    change Option.map ValueObject.entry (if (!isExpired value.expiresAt now) = true then _ else _) =
      if (!isExpired value.expiresAt now) = true then _ else _
    split <;> rfl

/-- Only the key itself fades when its live value is all that is kept of it. -/
theorem fades_of_liveValue {s s' : Store} {key : Bytes} {now : Int}
    (h : ∀ k, s'.lookup k = if k = key then liveValue (s.lookup key) now else s.lookup k) :
    Fades now s.view s'.view := by
  intro k
  unfold view
  rw [h k]
  by_cases hk : k = key
  · subst hk
    rw [if_pos rfl]
    cases hlookup : s.lookup k with
    | none => exact .inl rfl
    | some value =>
      rw [liveValue_some]
      split
      · exact .inr ⟨rfl, value.entry, rfl, ‹_›⟩
      · exact .inl rfl
  · rw [if_neg hk]
    exact .inl rfl

theorem view_update {s s' : Store} {key : Bytes} {value : Option ValueObject}
    (h : ∀ k, s'.lookup k = if k = key then value else s.lookup k) :
    s'.view = update s.view key (value.map ValueObject.entry) := by
  funext k
  unfold view
  rw [h k]
  by_cases hk : k = key
  · subst hk
    rw [if_pos rfl, update_self]
  · rw [if_neg hk, update_of_ne hk]

theorem Store.writeKey_ok (s : Store) {fn : KeyWrite → WriteAction ρ} {r : ρ × List Bytes}
    (h : (s.writeKey key env fn).2 = .ok r) :
    ∃ value : ValueObject,
      (fn ⟨liveValue (s.lookup key) (env.now 0), env.clock 0, s.maxMemoryEnabled⟩).outcome =
        .ok (some value.entry) ∧
      (s.writeKey key env fn).1.lookup key = some value ∧
      fn ⟨liveValue (s.lookup key) (env.now 0), env.clock 0, s.maxMemoryEnabled⟩ ∈
        [.inPlace value r.1, .commit value r.1] := by
  rw [writeKey_eq] at h ⊢
  simp only [Prod.map_fst, Prod.map_snd, id, lookup_publish_if] at h ⊢
  generalize fn ⟨liveValue (s.lookup key) (env.now 0), env.clock 0, s.maxMemoryEnabled⟩ = action
    at h ⊢
  cases action with
  | fail err => cases h
  | inPlace value result =>
    cases h
    refine ⟨value, rfl, ?_, mem_cons_self⟩
    change (put _ key value).lookup key = _
    rw [lookup_put, if_pos rfl]
  | commit value result =>
    obtain ⟨-, -, hcommitted⟩ :=
      (s.prepareExistingValueLocked key (env.now 0)).1.commit_spec key
        ⟨liveValue (s.lookup key) (env.now 0), env.clock 0, s.maxMemoryEnabled⟩ value (env.after 2)
    unfold perform at h ⊢
    simp only at h ⊢
    split at h
    · cases h
    · rename_i s' evicted hcommit
      rw [hcommit] at hcommitted
      cases h
      exact ⟨value, rfl, (hcommitted evicted rfl).1, mem_cons_of_mem _ mem_cons_self⟩

/-- **A write through `writeKey` acts as its operation decides.** -/
theorem acts_writeKey (hplain : s.maxMemoryEnabled = false) (key : Bytes)
    (env : Env) {fn : Store.KeyWrite → Store.WriteAction ρ}
    (hfn : ∀ current, (fn ⟨current, env.clock 0, false⟩).outcome =
      effect (current.map ValueObject.entry)) :
    Acts s key (env.now 0) effect ((s.writeKey key env fn).map id fun r => r.map Prod.snd) := by
  obtain ⟨hanswer, hlookup⟩ := writeKey_plain hplain key env fn
  have houtcome := hfn (liveValue (s.lookup key) (env.now 0))
  rw [map_entry_liveValue] at houtcome
  unfold Acts view
  rw [← houtcome, Prod.map_snd, hanswer]
  generalize fn ⟨liveValue (s.lookup key) (env.now 0), env.clock 0, false⟩ = action at hlookup
  cases action with
  | fail err => exact ⟨rfl, fades_of_liveValue hlookup⟩
  | inPlace value result => exact ⟨rfl, view_update hlookup⟩
  | commit value result => exact ⟨rfl, view_update hlookup⟩

/-- The meaning of what is left after taking from a payload. -/
def takes {ρ : Type} (fn : Payload → Except StorageError (Option (Payload × ρ)))
    (change : Logical → Except StorageError Logical) : Prop :=
  ∀ payload, match fn payload with
    | .error err => change payload.logical = .error err
    | .ok none => ∃ value, change payload.logical = .ok value ∧ value.Empty
    | .ok (some (left, _)) => change payload.logical = .ok left.logical ∧
        (left.logical.Empty ↔ ¬left.Sound)

/-- **Taking from a key acts as the change of its value**, and deletes what became empty. -/
theorem acts_shrinkKey (s : Store) (key : Bytes) (env : Env) (stamp : Int) (absent : ρ)
    {fn : Payload → Except StorageError (Option (Payload × ρ))} (hfn : takes fn change) :
    Acts s key (env.now 0) (fun current => shrinkEntry current change)
      ((s.shrinkKey key env stamp absent fn).map id fun r => r.map fun _ => []) := by
  have hgone : ∀ s' : Store, (∀ k, s'.lookup k = if k = key then none else s.lookup k) →
      s'.view = update s.view key none := fun s' h => view_update h
  unfold Acts shrinkKey
  rw [Prod.map_snd, Prod.map_fst]
  cases hlookup : s.lookup key with
  | none =>
    have hview : s.view key = none := congrArg (Option.map ValueObject.entry) hlookup
    rw [hview]
    refine ⟨rfl, ?_⟩
    rw [← hview, update_eq_self]
    rfl
  | some value =>
    have hview : s.view key = some value.entry := congrArg (Option.map ValueObject.entry) hlookup
    have hlive : liveEntry (s.view key) (env.now 0) =
        if isExpired value.expiresAt (env.now 0) then none else some value.entry := by
      rw [hview, liveEntry, Option.filter_some]
      change (if (!isExpired value.expiresAt (env.now 0)) = true then _ else none) = _
      cases isExpired value.expiresAt (env.now 0) <;> rfl
    rw [hlive]
    simp only
    by_cases hexpired : isExpired value.expiresAt (env.now 0) = true
    · rw [if_pos hexpired, if_pos hexpired]
      exact ⟨rfl, hgone _ (lookup_deleteKey s key)⟩
    · rw [if_neg hexpired, if_neg hexpired]
      have hvalue := hfn value.payload
      have hentry : value.entry.value = value.payload.logical := rfl
      simp only [shrinkEntry, hentry]
      generalize fn value.payload = taken at hvalue
      rcases taken with err | ⟨_ | ⟨left, result⟩⟩
      · simp only at hvalue
        rw [hvalue]
        exact ⟨rfl, Fades.refl _ _⟩
      · obtain ⟨left, hleft, hempty⟩ := hvalue
        rw [hleft]
        simp only [Except.map, if_pos hempty]
        exact ⟨trivial, hgone _ (lookup_deleteKey s key)⟩
      · obtain ⟨hleft, hempty⟩ := hvalue
        rw [hleft]
        simp only [Except.map]
        by_cases hsound : left.Sound
        · rw [dif_pos hsound, if_neg (fun h => hempty.mp h hsound)]
          refine ⟨rfl, ?_⟩
          refine @view_update s _ key (some ⟨left, value.expiresAt, stamp, hsound⟩) fun k => ?_
          split
          · rw [id, lookup_addUsed, lookup_put]
          · rw [id, lookup_put]
        · rw [dif_neg hsound, if_pos (hempty.mpr hsound)]
          exact ⟨rfl, hgone _ fun k => lookup_deleteKeyWithSize s key k _⟩

/-! ### One operation at a time -/

namespace Store

/-- An action that decides as a mutation says. -/
def Realizes {ρ : Type} (fn : KeyWrite → WriteAction ρ) (m : Mutation) : Prop :=
  ∀ current now accounting, (fn ⟨current, now, accounting⟩).outcome =
    m.apply now.millis (current.map ValueObject.entry)

theorem setAction_outcome (value : Bytes) (expiresAt stamp : Int) :
    Realizes (setAction value expiresAt stamp) (.set value expiresAt) := fun _ _ _ => rfl

theorem incrementAction_outcome (stamp : Int) : Realizes (incrementAction stamp) .increment := by
  intro current now accounting
  rcases current with _ | ⟨payload, expiresAt, last, sound⟩
  · rfl
  · cases payload with
    | string data =>
      simp only [incrementAction, Mutation.apply, changeEntry, Option.map_some, ValueObject.entry,
        logical, onString]
      cases incrementedValue data <;> cases accounting <;> rfl
    | list | zset | stream | hash | set => rfl

theorem setBitAction_outcome (offset bit : Int) (current : Option ValueObject) (now : Instant)
    (accounting : Bool) :
    (setBitAction offset bit ⟨current, now, accounting⟩).outcome =
      changeEntry (current.map ValueObject.entry) (.ok (.string (setBitPayload [] offset bit)))
        (onString fun data => .ok (setBitPayload data offset bit)) := by
  rcases current with _ | ⟨payload, expiresAt, last, sound⟩
  · rfl
  · cases payload with
    | string data =>
      simp only [setBitAction]
      split <;> rfl
    | list | zset | stream | hash | set => rfl

theorem pfAddAction_outcome (elements : List Bytes) :
    Realizes (pfAddAction elements) (.pfAdd elements) := by
  intro current now accounting
  rcases current with _ | ⟨payload, expiresAt, last, sound⟩
  · rfl
  · cases payload with
    | string data =>
      simp only [pfAddAction, Mutation.apply, changeEntry, Option.map_some, ValueObject.entry,
        logical, onString]
      cases pfAddExisting data elements <;> rfl
    | list | zset | stream | hash | set => rfl

variable (left : Bool)

theorem pushAction_outcome (values : List Bytes) (h : values ≠ []) (stamp : Int) :
    Realizes (pushAction left values h stamp) (.push left values) := by
  intro current now accounting
  simp only [Mutation.apply, if_neg h]
  rcases current with _ | ⟨payload, expiresAt, _, _⟩
  · rfl
  · cases payload with
    | list items =>
      simp only [pushAction, ite_copyList]
      rfl
    | string | zset | stream | hash | set => rfl

theorem zAddAction_outcome (entries : List ZSetEntry) (h : entries ≠ []) (order : MapOrder Bytes) :
    Realizes (zAddAction entries h order) (.zAdd entries) := by
  intro current now accounting
  simp only [Mutation.apply, if_neg h]
  rcases current with _ | ⟨payload, expiresAt, _, _⟩
  · change Except.ok (some (Entry.mk (.zset (ZSetRep.ofEntries order entries).entries) 0)) = _
    rw [ZSetRep.entries_ofEntries]
    rfl
  · cases payload with
    | zset rep =>
      change Except.ok (some (Entry.mk
        (.zset ((if accounting then rep.clone else rep).add entries).1.entries) expiresAt)) = _
      rw [ZSetRep.entries_add, apply_ite_copy rep.entries_clone]
      rfl
    | string | list | stream | hash | set => rfl

theorem hSetAction_outcome (pairs : List HashFieldValue) (h : pairs ≠ []) (order : MapOrder Bytes) :
    Realizes (hSetAction pairs h order) (.hSet pairs) := by
  intro current now accounting
  simp only [Mutation.apply, if_neg h]
  rcases current with _ | ⟨payload, expiresAt, _, _⟩
  · change Except.ok (some (Entry.mk (.hash (ofPairs order pairs).get) 0)) = _
    rw [get_ofPairs]
    rfl
  · cases payload with
    | hash rep =>
      change Except.ok (some (Entry.mk
        (.hash ((if accounting then rep.clone order else rep).set pairs).1.get) expiresAt)) = _
      rw [get_set, apply_ite_copy (rep.get_clone order)]
      rfl
    | string | list | stream | zset | set => rfl

theorem sAddAction_outcome (members : List Bytes) (h : members ≠ []) (order : MapOrder Bytes) :
    Realizes (sAddAction members h order) (.sAdd members) := by
  intro current now accounting
  simp only [Mutation.apply, if_neg h]
  rcases current with _ | ⟨payload, expiresAt, _, _⟩
  · change Except.ok (some (Entry.mk (.set (SetRep.ofMembers members).contains) 0)) = _
    rw [SetRep.contains_ofMembers]
    rfl
  · cases payload with
    | set rep =>
      change Except.ok (some (Entry.mk
        (.set ((if accounting then rep.clone order else rep).add members).1.contains) expiresAt)) = _
      rw [SetRep.contains_add, apply_ite_copy (rep.contains_clone order)]
      rfl
    | string | list | stream | zset | hash => rfl

/-- The payload after an entry was added, or the refusal, follow the entries. -/
theorem streamPayload_logical (stream : StreamValue)
    (hpaired : ∀ record ∈ stream.entries, Payload.PairedValues record.values) (rawID : Bytes)
    (values : List Bytes) (hvalues : Payload.PairedValues values) (now : Instant) :
    (streamPayload stream hpaired rawID values hvalues now).map (fun r => r.1.1.logical) =
      (streamAdd stream.entries rawID values now.millis).map .stream := by
  unfold streamPayload streamAdd
  rw [← stream.last_eq]
  split
  · rename_i err h
    exact (congrArg (fun r => (Except.map (fun id => stream.entries ++ [⟨id, values⟩]) r).map
      Logical.stream) h).symm
  · rename_i id h
    exact (congrArg (fun r => (Except.map (fun id => stream.entries ++ [⟨id, values⟩]) r).map
      Logical.stream) h).symm

theorem xAddAction_outcome (rawID : Bytes) (values : List Bytes) (hvalues : Payload.PairedValues values) :
    Realizes (xAddAction rawID values hvalues) (.xAdd rawID values) := by
  intro current now accounting
  simp only [Mutation.apply, if_pos hvalues]
  rcases current with _ | ⟨payload, expiresAt, _, hsound⟩
  · have hlogical := streamPayload_logical .empty (fun _ h => by cases h) rawID values hvalues now
    change _ = ((streamAdd StreamValue.empty.entries rawID values now.millis).map
      Logical.stream).map _
    rw [← hlogical]
    simp only [xAddAction]
    cases streamPayload .empty (fun _ h => by cases h) rawID values hvalues now <;> rfl
  · cases payload with
    | stream stream =>
      have hlogical := streamPayload_logical stream hsound.2 rawID values hvalues now
      change _ = ((streamAdd stream.entries rawID values now.millis).map Logical.stream).map _
      rw [← hlogical]
      simp only [xAddAction, ite_clone]
      cases streamPayload stream hsound.2 rawID values hvalues now <;> rfl
    | string | list | zset | hash | set => rfl

/-! ### Taking -/

theorem takes_list {ρ : Type} {fn : Payload → Except StorageError (Option (Payload × ρ))}
    {f : List Bytes → List Bytes} (hempty : fn (.list []) = .ok none) (hf : f [] = [])
    (hlist : ∀ item items, ∃ result,
      fn (.list (item :: items)) = .ok (some (.list (f (item :: items)), result)))
    (hother : ∀ payload, (∀ items, payload ≠ .list items) → fn payload = .error .wrongType) :
    takes fn (onList f) := by
  intro payload
  cases payload with
  | list items =>
    cases items with
    | nil =>
      rw [hempty]
      exact ⟨.list [], by rw [logical, onList, hf], rfl⟩
    | cons item items =>
      obtain ⟨result, hresult⟩ := hlist item items
      rw [hresult]
      refine ⟨rfl, ?_⟩
      change f (item :: items) = [] ↔ ¬f (item :: items) ≠ []
      rw [not_not]
  | string _ | zset _ | stream _ | hash _ | set _ =>
    rw [hother _ fun _ h => by cases h]
    rfl

theorem takes_pop :
    takes (popPayload left) (onList fun items => if left then items.tail else items.dropLast) := by
  refine takes_list rfl (by cases left <;> rfl) (fun item items => ?_) fun payload h => ?_
  · cases left
    · exact ⟨_, rfl⟩
    · exact ⟨_, rfl⟩
  · cases payload with
    | list items => exact absurd rfl (h items)
    | _ => rfl

theorem takes_popN (count : Nat) :
    takes (popNPayload left count) (onList fun items =>
      if left then items.drop count else items.take (items.length - count)) := by
  refine takes_list rfl (by cases left <;> simp) (fun item items => ?_) fun payload h => ?_
  · cases left
    · exact ⟨_, rfl⟩
    · exact ⟨_, rfl⟩
  · cases payload with
    | list items => exact absurd rfl (h items)
    | _ => rfl

theorem takes_hDel (fields : List Bytes) :
    takes (hDelPayload fields) fun
      | .hash old => .ok (.hash (unassign old fields))
      | _ => .error .wrongType := by
  intro payload
  cases payload with
  | hash rep =>
    refine ⟨?_, ?_⟩
    · change _ = Except.ok (Logical.hash (rep.del fields).1.get)
      rw [get_del]
      rfl
    · change (∀ field, (rep.del fields).1.get field = none) ↔ ¬(rep.del fields).1.len ≠ 0
      rw [not_not, len_eq_zero_iff]
  | _ => rfl

theorem takes_sRem (members : List Bytes) :
    takes (sRemPayload members) fun
      | .set old => .ok (.set fun member => old member && !decide (member ∈ members))
      | _ => .error .wrongType := by
  intro payload
  cases payload with
  | set rep =>
    refine ⟨?_, ?_⟩
    · change _ = Except.ok (Logical.set (rep.remove members).1.contains)
      rw [SetRep.contains_remove]
      rfl
    · change (∀ member, (rep.remove members).1.contains member = false) ↔
        ¬(rep.remove members).1.len ≠ 0
      rw [not_not, SetRep.len_eq_zero_iff]
  | _ => rfl

end Store

theorem acts_refused
    (h : ∀ current, effect current = .error err) : Acts s key now effect (s, .error err) := by
  unfold Acts
  rw [h]
  exact ⟨rfl, Fades.refl _ _⟩

theorem Store.delete_spec (s : Store) (key : Bytes) (env : Env) :
    (∀ k, (s.delete key env).1.lookup k = if k = key then none else s.lookup k) ∧
      (s.delete key env).1.maxMemory = s.maxMemory := by
  unfold delete
  cases hlookup : s.lookup key with
  | none =>
    refine ⟨fun k => ?_, rfl⟩
    by_cases hk : k = key
    · rw [if_pos hk, hk]
      exact hlookup
    · rw [if_neg hk]
  | some value => exact ⟨lookup_deleteKey s key, maxMemory_deleteKey s key⟩

theorem acts_delete (s : Store) (key : Bytes) (env : Env) :
    Acts s key (env.now 0) (Mutation.delete.apply (env.now 0)) ((s.delete key env).1, .ok []) := by
  refine ⟨rfl, ?_⟩
  exact @view_update s _ key none (s.delete_spec key env).1

namespace Store

theorem keptByDeletion_maxMemory (limit : Int) : KeptByDeletion fun s => s.maxMemory = limit :=
  fun s key h => (maxMemory_deleteKey s key).trans h

theorem maxMemory_shrinkKey {ρ : Type} (s : Store) (key : Bytes) (env : Env) (stamp : Int)
    (absent : ρ) (fn : Payload → Except StorageError (Option (Payload × ρ))) :
    (s.shrinkKey key env stamp absent fn).1.maxMemory = s.maxMemory := by
  refine (keptByDeletion_maxMemory _).shrinkKey rfl key env stamp absent fun _ _ _ _ _ _ => ?_
  simp only
  split <;> rfl

end Store

/-- How an operation of the store is carried out: through `writeKey`, by an action that decides as
`effect` says whether or not the memory is accounted, or on its own, without needing room. -/
inductive Carried (s : Store) (key : Bytes) (env : Env)
    (effect : Option Entry → Except StorageError (Option Entry)) :
    Store × Except StorageError (List Bytes) → Prop where
  | write {ρ : Type} (fn : Store.KeyWrite → Store.WriteAction ρ)
    (outcome : ∀ current accounting, (fn ⟨current, env.clock 0, accounting⟩).outcome =
      effect (current.map ValueObject.entry)) :
    Carried s key env effect ((s.writeKey key env fn).map id fun r => r.map Prod.snd)
  | alone {result : Store × Except StorageError (List Bytes)}
    (acts : Acts s key (env.now 0) effect result) (limit : result.1.maxMemory = s.maxMemory) :
    Carried s key env effect result

theorem carried_refused
    (h : ∀ current, effect current = .error err) : Carried s key env effect (s, .error err) :=
  .alone (acts_refused h) rfl

theorem carried_shrinkKey (s : Store) (key : Bytes) (env : Env) (stamp : Int)
    (absent : ρ) {fn : Payload → Except StorageError (Option (Payload × ρ))} (hfn : takes fn change)
    (heffect : ∀ current, effect current = shrinkEntry current change) :
    Carried s key env effect
      ((s.shrinkKey key env stamp absent fn).map id fun r => r.map fun _ => []) := by
  obtain rfl : effect = fun current => shrinkEntry current change := funext heffect
  exact .alone (acts_shrinkKey s key env stamp absent hfn) (s.maxMemory_shrinkKey key env _ _ _)

/-- A plan does what `effect` says: whether or not the memory is accounted, and in whatever order
maps are iterated. -/
inductive Plan.Meets (now : Instant) (effect : Option Entry → Except StorageError (Option Entry)) :
    Plan → Prop where
  | refuse {err : StorageError} (refuses : ∀ current, effect current = .error err) :
    Plan.Meets now effect (.refuse err)
  | through {fn : Store.KeyWrite → Store.WriteAction Datum}
    (outcome : ∀ current accounting, (fn ⟨current, now, accounting⟩).outcome =
      effect (current.map ValueObject.entry)) :
    Plan.Meets now effect (.through fn)
  | take {stamp : Int} {absent : Datum} {fn : Payload → Except StorageError (Option (Payload × Datum))}
    {change : Logical → Except StorageError Logical} (taken : takes fn change)
    (shrinks : ∀ current, effect current = shrinkEntry current change) :
    Plan.Meets now effect (.take stamp absent fn)
  | delete (deletes : ∀ current, effect current = .ok none) : Plan.Meets now effect .delete

theorem Plan.meets_writing {now : Instant} (datum : ρ → Datum)
    {fn : Store.KeyWrite → Store.WriteAction ρ}
    (h : ∀ current accounting, (fn ⟨current, now, accounting⟩).outcome =
      effect (current.map ValueObject.entry)) : Plan.Meets now effect (.writing datum fn) := by
  refine .through fun current accounting => ?_
  rw [← h current accounting]
  cases fn ⟨current, now, accounting⟩ <;> rfl

theorem Plan.meets_taking {now : Instant} (datum : ρ → Datum) (stamp : Int)
    (absent : ρ) {fn : Payload → Except StorageError (Option (Payload × ρ))} (h : takes fn change)
    (heffect : ∀ current, effect current = shrinkEntry current change) :
    Plan.Meets now effect (.taking datum stamp absent fn) := by
  refine .take (fun payload => ?_) heffect
  have hpayload := h payload
  rcases hfn : fn payload with err | left | left
  · rw [hfn] at hpayload
    exact hpayload
  · rw [hfn] at hpayload
    exact hpayload
  · rw [hfn] at hpayload
    exact hpayload

/-- **The plan of every write does what its mutation says.** -/
theorem Mutation.plan_meets (m : Mutation) (env : Env) :
    (m.plan env).Meets (env.clock 0) (m.apply (env.now 0)) := by
  -- arguments that the operation refuses before it looks at the key are refused by the mutation
  unfold Mutation.plan
  cases m with
  | set value expiresAt =>
    exact Plan.meets_writing _ fun current => setAction_outcome value expiresAt _ current _
  | increment =>
    exact Plan.meets_writing _ fun current => incrementAction_outcome _ current _
  | setBit offset bit =>
    simp only
    cases hvalid : validateBitmapArguments offset bit with
    | error err =>
      refine .refuse fun current => ?_
      simp only [Mutation.apply, hvalid]
      rfl
    | ok _ =>
      refine Plan.meets_writing _ fun current accounting => ?_
      simp only [Mutation.apply, hvalid]
      exact setBitAction_outcome offset bit current (env.clock 0) accounting
  | pfAdd elements =>
    exact Plan.meets_writing _ fun current => pfAddAction_outcome elements current _
  | push left values =>
    simp only
    split
    · rename_i hnil
      exact .refuse fun current => if_pos hnil
    · rename_i hne
      exact Plan.meets_writing _ fun current => pushAction_outcome left values hne _ current _
  | pop left => exact Plan.meets_taking _ _ none (takes_pop left) fun _ => rfl
  | popN left count =>
    simp only
    split
    · rename_i hneg
      exact .refuse fun current => if_pos hneg
    · rename_i hnonneg
      exact Plan.meets_taking _ _ none (takes_popN left count.toNat)
        fun current => if_neg hnonneg
  | zAdd entries =>
    simp only
    split
    · rename_i hnil
      exact .refuse fun current => if_pos hnil
    · rename_i hne
      exact Plan.meets_writing _ fun current => zAddAction_outcome entries hne _ current _
  | xAdd rawID values =>
    simp only
    split
    · rename_i hvalues
      exact Plan.meets_writing _ fun current => xAddAction_outcome rawID values hvalues current _
    · rename_i hvalues
      exact .refuse fun current => if_neg hvalues
  | hSet pairs =>
    simp only
    split
    · rename_i hnil
      exact .refuse fun current => if_pos hnil
    · rename_i hne
      exact Plan.meets_writing _ fun current => hSetAction_outcome pairs hne _ current _
  | hDel fields =>
    simp only
    split
    · rename_i hnil
      exact .refuse fun current => if_pos hnil
    · rename_i hne
      exact Plan.meets_taking _ _ 0 (takes_hDel fields) fun current => if_neg hne
  | sAdd members =>
    simp only
    split
    · rename_i hnil
      exact .refuse fun current => if_pos hnil
    · rename_i hne
      exact Plan.meets_writing _ fun current => sAddAction_outcome members hne _ current _
  | sRem members =>
    simp only
    split
    · rename_i hnil
      exact .refuse fun current => if_pos hnil
    · rename_i hne
      exact Plan.meets_taking _ _ 0 (takes_sRem members) fun current => if_neg hne
  | delete => exact .delete fun _ => rfl

/-- **Every operation of the store is carried out as its mutation.** -/
theorem mutate_carried (s : Store) (key : Bytes) (m : Mutation) (env : Env) :
    Carried s key env (m.apply (env.now 0)) (s.mutate key m env) := by
  have hmeets := m.plan_meets env
  rw [mutate, s.write_eq_carryOut]
  generalize m.plan env = plan at hmeets ⊢
  cases hmeets with
  | refuse refuses => exact carried_refused refuses
  | through outcome => exact .write _ outcome
  | @take stamp absent fn change taken shrinks =>
    have hcarried := carried_shrinkKey s key env stamp absent taken shrinks
    change Carried s key env _ ((told id (s.shrinkKey key env stamp absent fn)).map id _)
    rcases hshrink : s.shrinkKey key env stamp absent fn with ⟨s', err | result⟩
    · rw [hshrink] at hcarried
      exact hcarried
    · rw [hshrink] at hcarried
      exact hcarried
  | delete deletes =>
    refine .alone ?_ (s.delete_spec key env).2
    have heffect : m.apply (env.now 0) = Mutation.delete.apply (env.now 0) := funext deletes
    rw [heffect]
    exact acts_delete s key env

/-- **Every operation of the store acts as its mutation**, as long as no memory limit is set. -/
theorem mutate_acts (hplain : s.maxMemoryEnabled = false) (key : Bytes) (m : Mutation)
    (env : Env) : Acts s key (env.now 0) (m.apply (env.now 0)) (s.mutate key m env) := by
  have hcarried := mutate_carried s key m env
  generalize s.mutate key m env = result at hcarried
  cases hcarried with
  | write fn outcome => exact acts_writeKey hplain key env fun current => outcome current false
  | alone acts _ => exact acts

theorem pop_eq_mutate (s : Store) (key : Bytes) (env : Env) :
    (s.pop key true env).1 = (s.mutate key (.pop true) env).1 := rfl

/-- **No operation changes the limit, and the keys it evicts are gone.** -/
theorem Store.mutate_spec (s : Store) (key : Bytes) (m : Mutation) (env : Env) :
    (s.mutate key m env).1.maxMemory = s.maxMemory ∧
      ∀ evicted, (s.mutate key m env).2 = .ok evicted →
        ∀ k ∈ evicted, (s.mutate key m env).1.lookup k = none := by
  have hcarried := mutate_carried s key m env
  generalize s.mutate key m env = result at hcarried
  cases hcarried with
  | write fn _ =>
    obtain ⟨hlimit, hgone⟩ := s.writeKey_spec key env fn
    refine ⟨hlimit, fun evicted hevicted k hk => ?_⟩
    rw [Prod.map_snd] at hevicted
    obtain ⟨r, hwrite, rfl⟩ := map_ok hevicted
    exact hgone r.1 r.2 hwrite k hk
  | alone acts limit =>
    refine ⟨limit, fun evicted hevicted k hk => ?_⟩
    obtain ⟨-, -, rfl, -⟩ := acts.entry hevicted
    cases hk

/-- **An operation that succeeds leaves what its mutation makes**, with a memory limit or without. -/
theorem Store.mutate_entry {m : Mutation}
    {evicted : List Bytes} (h : (s.mutate key m env).2 = .ok evicted) :
    m.apply (env.now 0) (liveEntry (s.view key) (env.now 0)) =
      .ok ((s.mutate key m env).1.view key) := by
  have hcarried := mutate_carried s key m env
  generalize s.mutate key m env = result at hcarried h
  cases hcarried with
  | write fn outcome =>
    rw [Prod.map_snd] at h
    obtain ⟨r, hwrite, -⟩ := map_ok h
    obtain ⟨value, hvalue, hlookup, -⟩ := s.writeKey_ok hwrite
    rw [outcome, map_entry_liveValue] at hvalue
    refine hvalue.trans ?_
    simp only [Prod.map_fst, id, view, hlookup]
    rfl
  | alone acts _ =>
    obtain ⟨e, heffect, -, hview⟩ := acts.entry h
    rw [heffect, hview, update_self]

/-! ## Reads, deletions and limits -/

namespace Store

/-- **A read shows at most that a key is past its deadline.** -/
theorem readKey_fades {ρ : Type} (s : Store) (key : Bytes) (env : Env)
    (fn : ValueObject → Except StorageError ρ) :
    Fades (env.now 0) s.view (s.readKey key env fn).1.view := by
  unfold readKey
  cases hlookup : s.lookup key with
  | none => exact Fades.refl _ _
  | some value =>
    simp only
    split
    · rename_i hexpired
      split
      · refine @fades_of_liveValue s _ key _ fun k => ?_
        rw [lookup_deleteKey, hlookup, liveValue_some, if_pos hexpired]
      · exact Fades.refl _ _
    · split
      · exact Fades.refl _ _
      · intro k
        left
        unfold view
        rw [lookup_put]
        split
        · rename_i hk
          rw [hk, hlookup]
          rfl
        · rfl

theorem maxMemory_readKey {ρ : Type} (s : Store) (key : Bytes) (env : Env)
    (fn : ValueObject → Except StorageError ρ) : (s.readKey key env fn).1.maxMemory = s.maxMemory :=
  (keptByDeletion_maxMemory _).readKey rfl key env fn fun _ _ => rfl

/-- A key that a read finds missing is left alone by the read. -/
theorem pfMerge_fades (keys : List Bytes) (s : Store) (merged : Bytes) (env : Env) {t : Int}
    (ht : env.DoneBy t) :
    Fades t s.view (pfMerge s keys merged env).1.view ∧
      (pfMerge s keys merged env).1.maxMemory = s.maxMemory := by
  induction keys generalizing s merged env with
  | nil => exact ⟨Fades.refl _ _, rfl⟩
  | cons key keys ih =>
    have hfades := (s.readKey_fades key env
      fun value => (stringValue value).bind hyperLogLogRegisters).mono (ht 0)
    have hlimit := s.maxMemory_readKey key env
      fun value => (stringValue value).bind hyperLogLogRegisters
    unfold pfMerge
    split
    · rename_i heq
      rw [heq] at hfades hlimit
      exact ⟨hfades, hlimit⟩
    · rename_i s' heq
      rw [heq] at hfades hlimit
      obtain ⟨hrest, hrest'⟩ := ih s' merged (env.after 2) (ht.after 2)
      exact ⟨hfades.trans hrest, hrest'.trans hlimit⟩
    · rename_i s' registers heq
      rw [heq] at hfades hlimit
      obtain ⟨hrest, hrest'⟩ := ih s' (mergeRegisters merged registers) (env.after 2) (ht.after 2)
      exact ⟨hfades.trans hrest, hrest'.trans hlimit⟩

theorem deleteLoop_spec (now : Int) (keys : List Bytes) (s : Store) (removed : List Bytes) :
    (∀ k, (deleteLoop now s keys removed).1.lookup k = if k ∈ keys then none else s.lookup k) ∧
      (deleteLoop now s keys removed).1.maxMemory = s.maxMemory := by
  refine ⟨fun k => ?_, (keptByDeletion_maxMemory _).deleteLoop rfl removed⟩
  rw [deleteLoop_fst, lookup_foldl_deleteKey]

theorem mem_groupKeysByShard {s : Store} {keys : List Bytes} {k : Bytes} :
    k ∈ s.groupKeysByShard keys ↔ k ∈ keys := by
  rw [groupKeysByShard, mem_flatMap]
  constructor
  · rintro ⟨i, -, h⟩
    exact (mem_filter.mp h).1
  · intro h
    exact ⟨s.shardIndex k, mem_finRange _, mem_filter.mpr ⟨h, by simp⟩⟩

/-- **`DeleteMany` removes the keys it is given**, however they are grouped. -/
theorem deleteMany_spec (s : Store) (keys : List Bytes) (env : Env) :
    (∀ k, (s.deleteMany keys env).1.lookup k = if k ∈ keys then none else s.lookup k) ∧
      (s.deleteMany keys env).1.maxMemory = s.maxMemory := by
  match keys with
  | [] => exact ⟨fun _ => rfl, rfl⟩
  | [key] =>
    obtain ⟨hlookup, hlimit⟩ := s.delete_spec key env
    refine ⟨fun k => (hlookup k).trans ?_, hlimit⟩
    simp only [mem_singleton]
  | first :: second :: rest =>
    obtain ⟨hlookup, hlimit⟩ := deleteLoop_spec (env.now 0)
      (s.groupKeysByShard (first :: second :: rest)) s []
    refine ⟨fun k => (hlookup k).trans ?_, hlimit⟩
    simp only [mem_groupKeysByShard]

/-- Every key of the other store has its value in the shard that is its own here. -/
theorem lookup_replacementShard (s other : Store) (order : MapOrder Bytes) (key : Bytes) :
    (s.replacementShard other order (s.shardIndex key)).lookup key = other.lookup key := by
  -- the entries that go to the shard of the key have distinct names
  have hnodup : (((other.allEntries order).filter fun e =>
      s.shardIndex e.1 = s.shardIndex key).map Prod.fst).Nodup :=
    (other.nodup_allEntries order).sublist (filter_sublist.map Prod.fst)
  have hfold := congrFun (lookup_foldl_insert ((other.allEntries order).filter fun e =>
    s.shardIndex e.1 = s.shardIndex key) ∅) key
  refine Option.ext fun value => ?_
  rw [replacementShard, hfold, ← @mem_allEntries other order]
  refine (assign_eq_some_iff hnodup).trans ?_
  rw [mem_filter, decide_eq_true_eq]
  exact and_iff_left rfl

/-- **`ReplaceWith` takes the values of the other store over**; with a limit it sweeps what has
expired. -/
theorem lookup_replaceWith (s other : Store) (env : Env) (key : Bytes) :
    (s.replaceWith other env).lookup key =
      if s.maxMemoryEnabled then liveValue (other.lookup key) (env.now 0)
      else other.lookup key := by
  have hshard := s.lookup_replacementShard other (env.order 0) key
  unfold replaceWith
  simp only [lookup_publish]
  split
  · rw [lookup_recalculate]
    exact congrArg (fun v => liveValue v (env.now 0)) hshard
  · exact hshard

end Store

end Stash
