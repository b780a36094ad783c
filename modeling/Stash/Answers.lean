import Stash.Keyspace

/-!
# Answers depend on logical values only

Two stores may hold the same logical value in different encodings, laid out in a different order,
with different access stamps.  No operation can tell them apart: what it answers is a function of
the logical value.  Where an operation walks over a hash or a set, the order of the answer is open,
and the answers are the same up to order.
-/

namespace Stash

open GoMap Store HashRep

/-! ## Payloads that mean the same -/

/-- Two payloads with one meaning, kind by kind. -/
inductive Payload.Alike : Payload → Payload → Prop where
  | string (data : Bytes) : Alike (.string data) (.string data)
  | list (items : List Bytes) : Alike (.list items) (.list items)
  | zset {rep rep' : ZSetRep} (h : rep.entries = rep'.entries) : Alike (.zset rep) (.zset rep')
  | stream {value value' : StreamValue} (h : value.entries = value'.entries) :
    Alike (.stream value) (.stream value')
  | hash {rep rep' : HashRep} (h : rep.get = rep'.get) : Alike (.hash rep) (.hash rep')
  | set {rep rep' : SetRep} (h : rep.contains = rep'.contains) : Alike (.set rep) (.set rep')

theorem Payload.alike_of_logical {p p' : Payload} (h : p.logical = p'.logical) : p.Alike p' := by
  cases p <;> cases p' <;> first | (cases h; done) | skip
  case string.string data _ => cases h; exact .string data
  case list.list items _ => cases h; exact .list items
  case zset.zset => exact .zset (Logical.zset.inj h)
  case stream.stream => exact .stream (Logical.stream.inj h)
  case hash.hash => exact .hash (Logical.hash.inj h)
  case set.set => exact .set (Logical.set.inj h)

/-- Two values, or two absent ones, with one meaning. -/
inductive ValuesAlike : Option ValueObject → Option ValueObject → Prop where
  | none : ValuesAlike none none
  | some {value value' : ValueObject} (payload : value.payload.Alike value'.payload)
    (deadline : value.expiresAt = value'.expiresAt) : ValuesAlike (some value) (some value')

theorem valuesAlike_of_entry {v v' : Option ValueObject}
    (h : v.map ValueObject.entry = v'.map ValueObject.entry) : ValuesAlike v v' := by
  rcases v with _ | value
  · rcases v' with _ | value'
    · exact .none
    · cases h
  · rcases v' with _ | value'
    · cases h
    · obtain ⟨hlogical, hdeadline⟩ := Entry.mk.inj (Option.some.inj h)
      exact .some (Payload.alike_of_logical hlogical) hdeadline

/-! ## Writes -/

/-- Two actions that answer alike for values that mean the same. -/
def AnswerAlike {ρ : Type} (fn fn' : Store.KeyWrite → Store.WriteAction ρ) : Prop :=
  ∀ {v v' : Option ValueObject} (now : Instant) (accounting accounting' : Bool), ValuesAlike v v' →
    (fn ⟨v, now, accounting⟩).answer = (fn' ⟨v', now, accounting'⟩).answer

/-- Two ways of taking that answer alike for payloads that mean the same. -/
def TakeAlike {ρ : Type} (fn fn' : Payload → Except StorageError (Option (Payload × ρ))) : Prop :=
  ∀ {p p' : Payload}, p.Alike p' →
    (fn p).map (Option.map Prod.snd) = (fn' p').map (Option.map Prod.snd)

namespace Store

theorem setAction_alike (value : Bytes) (expiresAt stamp stamp' : Int) :
    AnswerAlike (setAction value expiresAt stamp) (setAction value expiresAt stamp') :=
  fun _ _ _ _ => rfl

theorem incrementAction_alike (stamp stamp' : Int) :
    AnswerAlike (incrementAction stamp) (incrementAction stamp') := by
  rintro _ _ now accounting accounting' (_ | @⟨⟨_, _, _, _⟩, ⟨_, _, _, _⟩, hpayload, _⟩)
  · rfl
  · cases hpayload with
    | string data =>
      simp only [incrementAction]
      cases incrementedValue data with
      | error err => rfl
      | ok parsed => cases accounting <;> cases accounting' <;> rfl
    | _ => rfl

theorem setBitAction_alike (offset bit : Int) :
    AnswerAlike (setBitAction offset bit) (setBitAction offset bit) := by
  rintro _ _ now accounting accounting' (_ | @⟨⟨_, _, _, _⟩, ⟨_, _, _, _⟩, hpayload, _⟩)
  · rfl
  · cases hpayload with
    | string data =>
      simp only [setBitAction]
      by_cases hinside : (offset / 8).toNat < data.length
      · cases accounting <;> cases accounting' <;> simp only [hinside, decide_true] <;> rfl
      · cases accounting <;> cases accounting' <;> simp only [hinside, decide_false] <;> rfl
    | _ => rfl

theorem pfAddAction_alike (elements : List Bytes) :
    AnswerAlike (pfAddAction elements) (pfAddAction elements) := by
  rintro _ _ now accounting accounting' (_ | @⟨⟨_, _, _, _⟩, ⟨_, _, _, _⟩, hpayload, _⟩)
  · rfl
  · cases hpayload with
    | string data =>
      simp only [pfAddAction]
      cases pfAddExisting data elements <;> rfl
    | _ => rfl

variable (left : Bool) (members : List Bytes)

theorem pushAction_alike (values : List Bytes) (hne : values ≠ []) (stamp stamp' : Int) :
    AnswerAlike (pushAction left values hne stamp) (pushAction left values hne stamp') := by
  rintro _ _ now accounting accounting' (_ | @⟨⟨_, _, _, _⟩, ⟨_, _, _, _⟩, hpayload, _⟩)
  · rfl
  · cases hpayload with
    | list items =>
      simp only [pushAction, ite_copyList]
      rfl
    | _ => rfl

theorem zAddAction_alike (entries : List ZSetEntry) (hne : entries ≠ [])
    (order order' : MapOrder Bytes) :
    AnswerAlike (zAddAction entries hne order) (zAddAction entries hne order') := by
  rintro _ _ now accounting accounting' (_ | @⟨⟨_, _, _, _⟩, ⟨_, _, _, _⟩, hpayload, _⟩)
  · have hlen : (ZSetRep.ofEntries order entries).len = (ZSetRep.ofEntries order' entries).len := by
      rw [ZSetRep.len_eq, ZSetRep.len_eq, ZSetRep.entries_ofEntries, ZSetRep.entries_ofEntries]
    exact congrArg (fun n => Except.ok (n, [])) hlen
  · cases hpayload with
    | @zset rep rep' hentries =>
      have htarget : (if accounting then rep.clone else rep).entries =
          (if accounting' then rep'.clone else rep').entries := by
        rw [apply_ite_copy rep.entries_clone, apply_ite_copy rep'.entries_clone, hentries]
      exact congrArg (fun n => Except.ok (n, [])) (ZSetRep.add_count_congr htarget entries)
    | _ => rfl

/-- The answer of an addition to a stream follows its entries. -/
theorem streamPayload_text {stream stream' : StreamValue} (h : stream.entries = stream'.entries)
    (hpaired : ∀ record ∈ stream.entries, Payload.PairedValues record.values)
    (hpaired' : ∀ record ∈ stream'.entries, Payload.PairedValues record.values) (rawID : Bytes)
    (values : List Bytes) (hvalues : Payload.PairedValues values) (now : Instant) :
    (streamPayload stream hpaired rawID values hvalues now).map Prod.snd =
      (streamPayload stream' hpaired' rawID values hvalues now).map Prod.snd := by
  have hspec : ∀ (s : StreamValue) (hs : ∀ record ∈ s.entries, Payload.PairedValues record.values),
      (streamPayload s hs rawID values hvalues now).map Prod.snd =
        (admitID (lastStreamID s.entries) rawID now.millis).map StreamID.text := by
    intro s hs
    unfold streamPayload
    rw [← s.last_eq]
    split
    · rename_i err herr
      exact (congrArg (Except.map StreamID.text) herr).symm
    · rename_i id hid
      exact (congrArg (Except.map StreamID.text) hid).symm
  rw [hspec, hspec, h]

theorem xAddAction_alike (rawID : Bytes) (values : List Bytes)
    (hvalues : Payload.PairedValues values) :
    AnswerAlike (xAddAction rawID values hvalues) (xAddAction rawID values hvalues) := by
  intro v v' now accounting accounting' h
  rcases h with _ | @⟨⟨p, expiresAt, _, hsound⟩, ⟨p', expiresAt', _, hsound'⟩, hpayload, hdeadline⟩
  · rfl
  · cases hpayload with
    | @stream value value' hentries =>
      have htext := streamPayload_text hentries hsound.2 hsound'.2 rawID values hvalues now
      simp only [xAddAction, ite_clone]
      rcases hleft : streamPayload value hsound.2 rawID values hvalues now with err | ⟨p, id⟩
      · rcases hright : streamPayload value' hsound'.2 rawID values hvalues now with err' | ⟨p', id'⟩
        · rw [hleft, hright] at htext
          exact congrArg Except.error (Except.error.inj htext)
        · rw [hleft, hright] at htext
          cases htext
      · rcases hright : streamPayload value' hsound'.2 rawID values hvalues now with err' | ⟨p', id'⟩
        · rw [hleft, hright] at htext
          cases htext
        · rw [hleft, hright] at htext
          exact congrArg (fun id => Except.ok (id, [])) (Except.ok.inj htext)
    | _ => rfl

theorem hSetAction_alike (pairs : List HashFieldValue) (hne : pairs ≠ [])
    (order order' : MapOrder Bytes) :
    AnswerAlike (hSetAction pairs hne order) (hSetAction pairs hne order') := by
  rintro _ _ now accounting accounting' (_ | @⟨⟨_, _, _, _⟩, ⟨_, _, _, _⟩, hpayload, _⟩)
  · have hlen : (ofPairs order pairs).len = (ofPairs order' pairs).len :=
      len_congr (by rw [get_ofPairs, get_ofPairs])
    exact congrArg (fun n => Except.ok (n, [])) hlen
  · cases hpayload with
    | @hash rep rep' hget =>
      have htarget : (if accounting then rep.clone order else rep).get =
          (if accounting' then rep'.clone order' else rep').get := by
        rw [apply_ite_copy (rep.get_clone _), apply_ite_copy (rep'.get_clone _), hget]
      exact congrArg (fun n => Except.ok (n, [])) (set_count_congr htarget pairs)
    | _ => rfl

theorem sAddAction_alike (hne : members ≠ []) (order order' : MapOrder Bytes) :
    AnswerAlike (sAddAction members hne order) (sAddAction members hne order') := by
  rintro _ _ now accounting accounting' (_ | @⟨⟨_, _, _, _⟩, ⟨_, _, _, _⟩, hpayload, _⟩)
  · rfl
  · cases hpayload with
    | @set rep rep' hcontains =>
      have htarget : (if accounting then rep.clone order else rep).contains =
          (if accounting' then rep'.clone order' else rep').contains := by
        rw [apply_ite_copy (rep.contains_clone _), apply_ite_copy (rep'.contains_clone _), hcontains]
      exact congrArg (fun n => Except.ok (n, [])) (SetRep.add_count_congr htarget members)
    | _ => rfl

theorem popPayload_alike : TakeAlike (popPayload left) (popPayload left) := by
  intro p p' h
  cases h <;> rfl

theorem popNPayload_alike (count : Nat) :
    TakeAlike (popNPayload left count) (popNPayload left count) := by
  intro p p' h
  cases h <;> rfl

theorem hDelPayload_alike (fields : List Bytes) :
    TakeAlike (hDelPayload fields) (hDelPayload fields) := by
  intro p p' h
  cases h with
  | hash hget => exact congrArg (fun n => Except.ok (some n)) (del_count_congr hget fields)
  | _ => rfl

theorem sRemPayload_alike : TakeAlike (sRemPayload members) (sRemPayload members) := by
  intro p p' h
  cases h with
  | set hcontains =>
    exact congrArg (fun n => Except.ok (some n)) (SetRep.remove_count_congr hcontains members)
  | _ => rfl

end Store

/-- Two plans that answer alike for values that mean the same. -/
inductive Plan.Alike : Plan → Plan → Prop where
  | refuse (err : StorageError) : Alike (.refuse err) (.refuse err)
  | through {fn fn' : Store.KeyWrite → Store.WriteAction Datum} (h : AnswerAlike fn fn') :
    Alike (.through fn) (.through fn')
  | take (stamp stamp' : Int) (absent : Datum)
    {fn fn' : Payload → Except StorageError (Option (Payload × Datum))} (h : TakeAlike fn fn') :
    Alike (.take stamp absent fn) (.take stamp' absent fn')
  | delete : Alike .delete .delete

variable {ρ : Type}

variable (datum : ρ → Datum)

theorem Plan.alike_writing
    {fn fn' : Store.KeyWrite → Store.WriteAction ρ} (h : AnswerAlike fn fn') :
    (Plan.writing datum fn).Alike (.writing datum fn') := by
  have hanswer : ∀ action : Store.WriteAction ρ,
      (action.map datum).answer = action.answer.map fun b => (datum b.1, b.2) := by
    rintro (_ | _ | _) <;> rfl
  refine .through fun now accounting accounting' hv => ?_
  rw [hanswer, hanswer, h now accounting accounting' hv]

theorem Plan.alike_taking (stamp stamp' : Int) (absent : ρ)
    {fn fn' : Payload → Except StorageError (Option (Payload × ρ))} (h : TakeAlike fn fn') :
    (Plan.taking datum stamp absent fn).Alike (.taking datum stamp' absent fn') := by
  have hanswer : ∀ r : Except StorageError (Option (Payload × ρ)),
      (r.map fun o => o.map fun left => (left.1, datum left.2)).map (Option.map Prod.snd) =
        (r.map (Option.map Prod.snd)).map (Option.map datum) := by
    rintro (_ | _ | _) <;> rfl
  refine .take stamp stamp' _ fun hp => ?_
  rw [hanswer, hanswer, h hp]

/-- **The plans of one write answer alike**, whatever the stamps and the order of iterations. -/
theorem Mutation.plan_alike (m : Mutation) (env env' : Env) : (m.plan env).Alike (m.plan env') := by
  unfold Mutation.plan
  cases m with
  | set value expiresAt => exact Plan.alike_writing _ (setAction_alike value expiresAt _ _)
  | increment => exact Plan.alike_writing _ (incrementAction_alike _ _)
  | setBit offset bit =>
    simp only
    cases validateBitmapArguments offset bit with
    | error err => exact .refuse err
    | ok _ => exact Plan.alike_writing _ (setBitAction_alike offset bit)
  | pfAdd elements => exact Plan.alike_writing _ (pfAddAction_alike elements)
  | push left values =>
    simp only
    split
    · exact .refuse _
    · exact Plan.alike_writing _ (pushAction_alike left values _ _ _)
  | pop left => exact Plan.alike_taking _ _ _ _ (popPayload_alike left)
  | popN left count =>
    simp only
    split
    · exact .refuse _
    · exact Plan.alike_taking _ _ _ _ (popNPayload_alike left count.toNat)
  | zAdd entries =>
    simp only
    split
    · exact .refuse _
    · exact Plan.alike_writing _ (zAddAction_alike entries _ _ _)
  | xAdd rawID values =>
    simp only
    split
    · exact Plan.alike_writing _ (xAddAction_alike rawID values _)
    · exact .refuse _
  | hSet pairs =>
    simp only
    split
    · exact .refuse _
    · exact Plan.alike_writing _ (hSetAction_alike pairs _ _ _)
  | hDel fields =>
    simp only
    split
    · exact .refuse _
    · exact Plan.alike_taking _ _ _ _ (hDelPayload_alike fields)
  | sAdd members =>
    simp only
    split
    · exact .refuse _
    · exact Plan.alike_writing _ (sAddAction_alike members _ _ _)
  | sRem members =>
    simp only
    split
    · exact .refuse _
    · exact Plan.alike_taking _ _ _ _ (sRemPayload_alike members)
  | delete => exact .delete

/-! ## Answers up to order -/

/-- Two snapshot values that differ in the order of their fields or members at most. -/
inductive SnapshotValue.Same : SnapshotValue → SnapshotValue → Prop where
  | refl (value : SnapshotValue) : Same value value
  | hash {pairs pairs' : List HashFieldValue} (h : pairs.Perm pairs') :
    Same (.hash pairs) (.hash pairs')
  | set {members members' : List Bytes} (h : members.Perm members') :
    Same (.set members) (.set members')

structure SnapshotEntry.Same (entry entry' : SnapshotEntry) : Prop where
  key : entry.key = entry'.key
  expiresAt : entry.expiresAt = entry'.expiresAt
  value : entry.value.Same entry'.value

/-- Two data that differ in an order which the program leaves open at most. -/
inductive Datum.Same : Datum → Datum → Prop where
  | refl (datum : Datum) : Same datum datum
  | fields {pairs pairs' : List HashFieldValue} (h : pairs.Perm pairs') :
    Same (.fields (some pairs)) (.fields (some pairs'))
  | members {values values' : List Bytes} (h : values.Perm values') :
    Same (.members (some values)) (.members (some values'))
  | removed {keys keys' : List Bytes} (h : keys.Perm keys') : Same (.removed keys) (.removed keys')
  | snapshot {entries between entries' : List SnapshotEntry} (h : entries.Perm between)
    (h' : List.Forall₂ SnapshotEntry.Same between entries') :
    Same (.snapshot entries) (.snapshot entries')
  | strings {entries entries' : List StringSnapshotEntry} (h : entries.Perm entries') :
    Same (.strings entries) (.strings entries')

/-- The same error, or the same datum up to order; and no key was evicted. -/
inductive Answer.Same : Answer → Answer → Prop where
  | error (err : StorageError) : Same (.error err) (.error err)
  | ok {datum datum' : Datum} (h : datum.Same datum') : Same (.ok (datum, [])) (.ok (datum', []))

theorem Answer.Same.told (r : Except StorageError ρ) :
    Answer.Same (r.map fun b => (datum b, [])) (r.map fun b => (datum b, [])) := by
  rcases r with err | b
  · exact .error err
  · exact .ok (.refl _)

/-! ## Reads -/

theorem StreamValue.entriesAfter_congr {value value' : StreamValue}
    (h : value.entries = value'.entries) (rawID : Bytes) :
    value.entriesAfter rawID = value'.entriesAfter rawID := by
  unfold entriesAfter
  rw [h]
  by_cases hempty : value'.entries = []
  · rw [if_pos hempty, if_pos hempty]
  · -- the last ID is that of the last entry
    have hlast : value.lastID = value'.lastID := by
      have hsome : (lastStreamID value'.entries).isSome := by
        rw [lastStreamID, Option.isSome_map, List.getLast?_isSome]
        exact hempty
      have hleft := value.latest
      have hright := value'.latest
      rw [h] at hleft
      rw [hleft] at hright hsome
      cases hentries : value.hasEntries with
      | false =>
        rw [hentries] at hsome
        cases hsome
      | true =>
        cases hentries' : value'.hasEntries with
        | false =>
          rw [hentries, hentries'] at hright
          cases hright
        | true =>
          rw [hentries, hentries'] at hright
          exact Option.some.inj hright
    rw [hlast]

namespace Store

/-- What `readKey` answers. -/
theorem readKey_answer {ρ : Type} (s : Store) (key : Bytes) (env : Env)
    (fn : ValueObject → Except StorageError ρ) :
    (s.readKey key env fn).2 =
      (liveValue (s.lookup key) (env.now 0)).elim (.ok none) fun value => (fn value).map some := by
  unfold readKey
  cases s.lookup key with
  | none => rfl
  | some value =>
    rw [liveValue_some]
    by_cases hexpired : isExpired value.expiresAt (env.now 0) = true
    · simp only [if_pos hexpired, Option.elim_none]
    · simp only [if_neg hexpired, Option.elim_some]
      cases fn value <;> rfl

/-- Reads that answer alike for payloads that mean the same answer alike. -/
theorem readKey_same {ρ : Type} {s s' : Store} {key : Bytes} {env env' : Env}
    {fn fn' : ValueObject → Except StorageError ρ} {datum : Option ρ → Datum}
    (hlive : ValuesAlike (liveValue (s.lookup key) (env.now 0))
      (liveValue (s'.lookup key) (env'.now 0)))
    (hfn : ∀ value value' : ValueObject, value.payload.Alike value'.payload →
      Answer.Same ((fn value).map fun r => (datum (some r), []))
        ((fn' value').map fun r => (datum (some r), []))) :
    Answer.Same (told datum (s.readKey key env fn)).2 (told datum (s'.readKey key env' fn')).2 := by
  unfold told
  rw [Prod.map_snd, Prod.map_snd, readKey_answer, readKey_answer]
  generalize liveValue (s.lookup key) (env.now 0) = v at hlive
  generalize liveValue (s'.lookup key) (env'.now 0) = v' at hlive
  cases hlive with
  | none => exact .ok (.refl _)
  | @some value value' payload deadline =>
    have hsame := hfn value value' payload
    have hmap : ∀ r : Except StorageError ρ, ((r.map some).map fun b => (datum b, ([] : List Bytes))) =
        r.map fun b => (datum (some b), []) := by
      rintro (_ | _) <;> rfl
    change Answer.Same (((fn value).map some).map _) (((fn' value').map some).map _)
    rw [hmap, hmap]
    exact hsame

theorem stringValue_alike {value value' : ValueObject} (h : value.payload.Alike value'.payload) :
    stringValue value = stringValue value' := by
  rcases value with ⟨p, _, _, _⟩
  rcases value' with ⟨p', _, _, _⟩
  cases h <;> rfl

/-- **A read answers by the logical value of its key.** -/
theorem read_same {s s' : Store} {key : Bytes} {env env' : Env} (q : Query)
    (hlive : ValuesAlike (liveValue (s.lookup key) (env.now 0))
      (liveValue (s'.lookup key) (env'.now 0))) :
    Answer.Same (s.read key q env).2 (s'.read key q env').2 := by
  cases q
  case get | bitCount =>
    refine readKey_same hlive fun value value' h => ?_
    rw [stringValue_alike h]
    exact .told _ _
  case getBit offset =>
    simp only [read, getBit]
    cases validateBitmapOffset offset with
    | error err => exact .error err
    | ok _ =>
      refine readKey_same hlive fun value value' h => ?_
      rw [stringValue_alike h]
      exact .told _ _
  all_goals
    refine readKey_same hlive ?_
    rintro ⟨p, _, _, _⟩ ⟨p', _, _, _⟩ h
  case listRange => cases h <;> exact .told _ _
  case zScores | zRange | zRangeByScores =>
    cases h with
    | zset hentries =>
      simp only [ZSetRep.score_eq, ZSetRep.len_eq, hentries]
      exact .told _ _
    | _ => exact .told _ _
  case xRead =>
    cases h with
    | stream hentries =>
      simp only [StreamValue.entriesAfter_congr hentries]
      exact .told _ _
    | _ => exact .told _ _
  case hGet =>
    cases h with
    | hash hget =>
      simp only [hget]
      exact .told _ _
    | _ => exact .told _ _
  case hGetAll =>
    cases h with
    | hash hget => exact .ok (.fields (perm_entries hget _ _))
    | _ => exact .told _ _
  case sIsMember =>
    cases h with
    | set hcontains =>
      simp only [hcontains]
      exact .told _ _
    | _ => exact .told _ _
  case sMembers =>
    cases h with
    | set hcontains => exact .ok (.members (SetRep.perm_members hcontains _ _))
    | _ => exact .told _ _

end Store

end Stash
