import Stash.StreamReplay

/-!
# Rewriting the append-only file

A rewrite turns a snapshot into commands that make it again: one command for a string, a list, a
hash, a set or a sorted set, and one XADD for each entry of a stream.  A value without a deadline
is reproduced at any time (`rewrite_explains`).  A string with a deadline is rewritten as a SET with
the time it has left, so its new deadline is counted from the moment the file is replayed.
-/

namespace Stash

open DecimalText GoMap Handlers List Function Executor Store HashRep World Payload

/-! ## The commands of a rewrite -/

/-- `rewriteCommand`. -/
def rewriteCommand (c : CommandName) (args : List Bytes) : Value :=
  .array (Value.text c.text :: args.map Value.bulk) false

theorem decode_rewriteCommand (rt : Runtime) (c : CommandName) (args : List Bytes) :
    decodeRequest rt (rewriteCommand c args) = .ok ⟨c.text, args⟩ :=
  decode_propagationFrame rt c args

/-- `rewriteFramesForEntry`.  The time left cannot overflow: both numbers are positive. -/
def rewriteFramesForEntry (rt : Runtime) (entry : SnapshotEntry) (now : Int) : List Value :=
  match entry.value with
  | .string data =>
    if 0 < entry.expiresAt ∧ entry.expiresAt ≤ now then []
    else if 0 < entry.expiresAt then
      let ttl := entry.expiresAt - now
      if ttl ≤ 0 then []
      else [rewriteCommand .set [entry.key, data, ascii "PX", formatInt ttl]]
    else [rewriteCommand .set [entry.key, data]]
  | .list items => if items = [] then [] else [rewriteCommand .rPush (entry.key :: items)]
  | .hash entries =>
    if entries = [] then []
    else
      [rewriteCommand .hSet
        (entry.key :: (sortBy Prod.fst entries).flatMap fun pair => [pair.1, pair.2])]
  | .set members =>
    if members = [] then [] else [rewriteCommand .sAdd (entry.key :: sortBy id members)]
  | .zset entries =>
    if entries = [] then []
    else
      [rewriteCommand .zAdd
        (entry.key :: entries.flatMap fun e => [rt.formatFloat e.score.bits, e.member])]
  | .stream entries =>
    entries.map fun e => rewriteCommand .xAdd (entry.key :: e.id :: e.values)

/-- `GenerateRewrite`, the frames. -/
def generateRewrite (rt : Runtime) (entries : List SnapshotEntry) (now : Int) : List Value :=
  (sortBy SnapshotEntry.key entries).flatMap fun entry => rewriteFramesForEntry rt entry now

/-- The entry of a key in a snapshot. -/
def snapshotEntry (order : MapOrder Bytes) (key : Bytes) (value : ValueObject) : SnapshotEntry :=
  ⟨key, value.expiresAt, value.payload.snapshot order⟩

/-- The entries of a snapshot are the live keys. -/
theorem mem_snapshotAll {s : Store} {env : Env} {entry : SnapshotEntry} :
    entry ∈ s.snapshotAll env ↔ ∃ key value, s.lookup key = some value ∧
      isExpired value.expiresAt (env.now 0) = false ∧
      entry = snapshotEntry (env.order 1) key value := by
  simp only [snapshotAll, liveEntries, mem_map, mem_filter, Prod.exists,
    mem_allEntries, Bool.not_eq_true']
  constructor
  · rintro ⟨key, value, ⟨hlookup, hlive⟩, rfl⟩
    exact ⟨key, value, hlookup, hlive, rfl⟩
  · rintro ⟨key, value, hlookup, hlive, rfl⟩
    exact ⟨key, value, ⟨hlookup, hlive⟩, rfl⟩

/-! ## Values that can be rewritten -/

/-- `FormatFloat` and `ParseFloat` round-trip. -/
def Runtime.RoundTrips (rt : Runtime) : Prop :=
  ∀ score : Score, rt.parseFloat (rt.formatFloat score.bits) = some score.bits

/-- Every score is finite. -/
def Logical.FiniteScores : Logical → Prop
  | .zset entries => ∀ entry ∈ entries, entry.score.Finite
  | _ => True

/-- Every stream ID is non-negative. -/
def Logical.NonnegIDs : Logical → Prop
  | .stream entries => ∀ record ∈ entries, record.id.Nonneg
  | _ => True

variable {rt : Runtime} {key : Bytes} {ks : Keyspace} {ttl : Int}

theorem parseFloatArgument_formatFloat (hfloat : rt.RoundTrips) {score : Score}
    (hfinite : score.Finite) : parseFloatArgument rt (rt.formatFloat score.bits) = .ok score := by
  unfold parseFloatArgument
  rw [hfloat score]
  exact dif_pos hfinite

theorem parseScoreMembers_rewrite (hfloat : rt.RoundTrips)
    {entries : List ZSetEntry} (hfinite : ∀ entry ∈ entries, entry.score.Finite) :
    parseScoreMembers rt (entries.flatMap fun e => [rt.formatFloat e.score.bits, e.member]) =
      .ok entries := by
  induction entries with
  | nil => rfl
  | cons entry entries ih =>
    change parseScoreMembers rt (rt.formatFloat entry.score.bits :: entry.member ::
      entries.flatMap fun e => [rt.formatFloat e.score.bits, e.member]) = _
    rw [parseScoreMembers,
      parseFloatArgument_formatFloat hfloat (hfinite entry mem_cons_self),
      ih fun e he => hfinite e (mem_cons_of_mem _ he)]
    rfl

theorem fieldValuePairs_flatMap (pairs : List HashFieldValue) :
    fieldValuePairs (pairs.flatMap fun pair => [pair.1, pair.2]) = pairs := by
  induction pairs with
  | nil => rfl
  | cons pair pairs ih =>
    change (pair.1, pair.2) :: fieldValuePairs (pairs.flatMap fun pair => [pair.1, pair.2]) = _
    rw [ih]

/-- The length of a list of pairs. -/
theorem length_flatMap_pair {α : Type} (f g : α → Bytes) (entries : List α) :
    (entries.flatMap fun e => [f e, g e]).length = 2 * entries.length := by
  induction entries with
  | nil => rfl
  | cons entry entries ih =>
    rw [flatMap_cons, length_append, ih, length_cons]
    simp only [length_cons, length_nil]
    omega

/-! ## Values without a deadline -/

/-- A command that makes the value of an absent key. -/
theorem explains_command {c : CommandName} {args : List Bytes} (m : Mutation) {e : Entry}
    (hvalid : ∀ now, c.validate rt args now = .ok ())
    (heffect : ∀ now, c.effect rt args now = .write key m) (htimeless : m.Timeless)
    (hdeadline : m.deadline = 0) (happly : m.apply 0 none = .ok (some e)) (hks : ks key = none) :
    ∃ records, List.Forall₂ (Denotes rt) [rewriteCommand c args] records ∧
      CommutingLog.run LogRecord.act records ks = some (update ks key (some e)) ∧
      ∀ record ∈ records, record.keys = [key] := by
  refine ⟨[.write key m], .cons ?_ .nil, ?_, fun record hrecord => ?_⟩
  · exact denotes_write (decode_rewriteCommand rt c args) hvalid heffect htimeless hdeadline
  · rw [CommutingLog.run_singleton]
    simp only [LogRecord.act, hks, happly]
  · obtain rfl := mem_singleton.mp hrecord
    rfl

/-- An entry that XADD accepts by the text of its ID. -/
structure Addable (record : StreamRecord) : Prop where
  nonneg : record.id.Nonneg
  bounded : record.id.Bounded
  paired : Payload.PairedValues record.values

theorem Addable.validate {record : StreamRecord} (h : Addable record) (rt : Runtime) (key : Bytes)
    (now : Instant) :
    CommandName.xAdd.validate rt (key :: record.id.text :: record.values) now = .ok () := by
  have hid : validateXAddID record.id.text = .ok () := by
    rw [validateXAddID, if_neg (text_ne_star record.id),
      parseStreamAddID_text h.nonneg h.bounded]
    rfl
  have hpaired := h.paired
  match hvalues : record.values with
  | [] => exact absurd hvalues hpaired.1
  | [_] =>
    rw [hvalues] at hpaired
    exact absurd hpaired.2 (by simp)
  | first :: second :: rest =>
    have heven : (key :: record.id.text :: first :: second :: rest).length % 2 = 0 := by
      have := hpaired.2
      rw [hvalues] at this
      simp only [length_cons] at this ⊢
      omega
    simp only [CommandName.validate, validateXAddRequest]
    rw [if_neg (by rw [heven]; simp), hid]
    rfl

/-- The record of the XADD for an entry. -/
def xAddRecord (key : Bytes) (record : StreamRecord) : LogRecord :=
  .write key (.xAdd record.id.text record.values)

/-- **Adding the entries one after the other** makes the stream. -/
theorem run_xAddRecords {key : Bytes} {done rest : List StreamRecord}
    (hascending : (done ++ rest).Pairwise fun left right => left.id.Before right.id)
    (hrest : ∀ record ∈ rest, Addable record) {ks : Keyspace} (hks : HoldsStream (ks key) done) :
    ∃ ks', CommutingLog.run LogRecord.act (rest.map (xAddRecord key)) ks = some ks' ∧
      HoldsStream (ks' key) (done ++ rest) ∧ ∀ k, k ≠ key → ks' k = ks k := by
  induction rest generalizing done ks with
  | nil => exact ⟨ks, rfl, by rw [append_nil]; exact hks, fun _ _ => rfl⟩
  | cons record rest ih =>
    have haddable := hrest record mem_cons_self
    have hlast : ∀ lastID, lastStreamID done = some lastID → lastID.Before record.id := by
      intro lastID hlastID
      rw [lastStreamID, Option.map_eq_some_iff] at hlastID
      obtain ⟨last, hlast, rfl⟩ := hlastID
      exact (pairwise_append.mp hascending).2.2 last (mem_of_getLast? hlast) record
        mem_cons_self
    have happly : (Mutation.xAdd record.id.text record.values).apply 0 (ks key) =
        .ok (some (streamEntry (done ++ [record]))) := by
      refine (apply_xAdd_iff fun e he => ?_).mpr ⟨haddable.paired, done, record.id, hks,
        admitID_text haddable.nonneg haddable.bounded hlast 0, rfl⟩
      rcases hks with ⟨hnone, -⟩ | ⟨hsome, hne⟩
      · rw [hnone] at he
        cases he
      · rw [hsome] at he
        cases he
        exact ⟨rfl, hne⟩
    have hstep : (xAddRecord key record).act ks =
        some (update ks key (some (streamEntry (done ++ [record])))) := by
      simp only [xAddRecord, LogRecord.act, happly]
    have hholds : HoldsStream (update ks key (some (streamEntry (done ++ [record]))) key)
        (done ++ [record]) := by
      rw [update_self]
      exact .inr ⟨rfl, by simp⟩
    rw [← singleton_append, ← append_assoc] at hascending
    obtain ⟨ks', hrun, hholds', hother⟩ :=
      ih hascending (fun r hr => hrest r (mem_cons_of_mem _ hr)) hholds
    refine ⟨ks', ?_, ?_, fun k hk => ?_⟩
    · rw [map_cons, CommutingLog.run, hstep]
      exact hrun
    · rw [append_assoc] at hholds'
      exact hholds'
    · rw [hother k hk, update_of_ne hk]

/-- The XADD commands of a stream make it. -/
theorem explains_stream {value : StreamValue}
    (hsound : (stream value).Sound) (hnonneg : ∀ record ∈ value.entries, record.id.Nonneg)
    (hks : ks key = none) :
    ∃ records, List.Forall₂ (Denotes rt)
        ((streamEntries value.entries).map fun e =>
          rewriteCommand .xAdd (key :: e.id :: e.values)) records ∧
      CommutingLog.run LogRecord.act records ks =
        some (update ks key (some ⟨.stream value.entries, 0⟩)) ∧
      ∀ record ∈ records, record.keys = [key] := by
  have haddable : ∀ record ∈ value.entries, Addable record := fun record hrecord =>
    ⟨hnonneg record hrecord, value.bounded record hrecord, hsound.2 record hrecord⟩
  obtain ⟨ks', hrun, hholds, hother⟩ := @run_xAddRecords key [] value.entries
    (value.ascending hnonneg) haddable ks (.inl ⟨hks, rfl⟩)
  refine ⟨value.entries.map (xAddRecord key), ?_, ?_, fun record hrecord => ?_⟩
  · rw [streamEntries, map_map]
    refine forall₂_map_left_iff.mpr (forall₂_map_right_iff.mpr
      (forall₂_same.mpr fun record hrecord => ?_))
    exact denotes_write (decode_rewriteCommand rt .xAdd _)
      (fun now => (haddable record hrecord).validate rt key now) (fun _ => rfl)
      (text_ne_star record.id) rfl
  · rw [hrun]
    congr 1
    funext k
    by_cases hk : k = key
    · subst hk
      rw [update_self]
      rcases hholds with ⟨-, hnil⟩ | ⟨hsome, -⟩
      · exact absurd hnil hsound.1
      · exact hsome
    · rw [update_of_ne hk, hother k hk]
  · obtain ⟨r, -, rfl⟩ := mem_map.mp hrecord
    rfl

variable (order : MapOrder Bytes)

/-- The HSET of a hash makes it, in whatever order the fields were handed out. -/
theorem explains_hash {rep : HashRep} (hsound : (hash rep).Sound) (hks : ks key = none) :
    rep.entries order ≠ [] ∧ ∃ records, List.Forall₂ (Denotes rt)
        [rewriteCommand .hSet (key ::
          (sortBy Prod.fst (rep.entries order)).flatMap fun pair => [pair.1, pair.2])] records ∧
      CommutingLog.run LogRecord.act records ks =
        some (update ks key (some ⟨.hash rep.get, 0⟩)) ∧
      ∀ record ∈ records, record.keys = [key] := by
  have hne : rep.entries order ≠ [] := by
    intro hnil
    refine hsound ((len_eq_zero_iff rep).mpr fun field => ?_)
    rw [← assign_entries order rep, hnil]
    rfl
  have hperm := perm_sortBy Prod.fst (rep.entries order)
  have hsorted : sortBy Prod.fst (rep.entries order) ≠ [] :=
    fun hnil => hne (perm_nil.mp (hnil ▸ hperm.symm))
  have hlength := length_flatMap_pair (fun p : HashFieldValue => p.1) (fun p => p.2)
    (sortBy Prod.fst (rep.entries order))
  have hpos := length_pos_of_ne_nil hsorted
  have hsame : assign (fun _ => none) (sortBy Prod.fst (rep.entries order)) = rep.get := by
    have hnodup := nodup_entries order rep
    rw [← assign_entries order rep]
    funext field
    refine Option.ext fun v => ?_
    rw [assign_eq_some_iff hnodup,
      assign_eq_some_iff ((hperm.map Prod.fst).nodup_iff.mpr hnodup), hperm.mem_iff]
  refine ⟨hne, explains_command (.hSet (sortBy Prod.fst (rep.entries order))) (fun now => ?_)
    (fun now => ?_) trivial rfl ?_ hks⟩
  · simp only [CommandName.validate, validateHSetRequest, length_cons, hlength]
    rw [if_neg (by omega)]
  · simp only [CommandName.effect, fieldValuePairs_flatMap]
  · simp only [Mutation.apply, if_neg hsorted, hsame]
    rfl

/-- The SADD of a set makes it. -/
theorem explains_set {rep : SetRep} (hsound : (set rep).Sound) (hks : ks key = none) :
    rep.members order ≠ [] ∧ ∃ records, List.Forall₂ (Denotes rt)
        [rewriteCommand .sAdd (key :: sortBy id (rep.members order))] records ∧
      CommutingLog.run LogRecord.act records ks =
        some (update ks key (some ⟨.set rep.contains, 0⟩)) ∧
      ∀ record ∈ records, record.keys = [key] := by
  have hne : rep.members order ≠ [] := by
    intro hnil
    refine hsound ((SetRep.len_eq_zero_iff rep).mpr fun member => ?_)
    rw [Bool.eq_false_iff]
    intro hcontains
    have hmem : member ∈ rep.members order := SetRep.mem_members.mpr hcontains
    rw [hnil] at hmem
    cases hmem
  have hperm := perm_sortBy id (rep.members order)
  have hsame : (fun member => decide (member ∈ sortBy id (rep.members order))) = rep.contains := by
    funext member
    rw [Bool.eq_iff_iff, decide_eq_true_iff, hperm.mem_iff, SetRep.mem_members]
  refine ⟨hne, ?_⟩
  cases hmembers : sortBy id (rep.members order) with
  | nil => exact absurd (perm_nil.mp (hmembers ▸ hperm.symm)) hne
  | cons member members =>
    rw [hmembers] at hsame
    refine explains_command (.sAdd (member :: members)) (fun now => rfl) (fun now => rfl) trivial
      rfl ?_ hks
    simp only [Mutation.apply, if_neg (cons_ne_nil member members), hsame]
    rfl

/-- The ZADD of a sorted set with finite scores makes it. -/
theorem explains_zset (hfloat : rt.RoundTrips) {rep : ZSetRep}
    (hsound : (zset rep).Sound) (hfinite : ∀ entry ∈ rep.entries, entry.score.Finite) (hks : ks key = none) :
    ∃ records, List.Forall₂ (Denotes rt)
        [rewriteCommand .zAdd (key ::
          rep.entries.flatMap fun e => [rt.formatFloat e.score.bits, e.member])] records ∧
      CommutingLog.run LogRecord.act records ks =
        some (update ks key (some ⟨.zset rep.entries, 0⟩)) ∧
      ∀ record ∈ records, record.keys = [key] := by
  have hlength := length_flatMap_pair (fun e : ZSetEntry => rt.formatFloat e.score.bits)
    (fun e => e.member) rep.entries
  have hpos := length_pos_of_ne_nil hsound
  have hparse := parseScoreMembers_rewrite hfloat hfinite
  refine explains_command (.zAdd rep.entries) (fun now => ?_) (fun now => ?_) trivial rfl ?_ hks
  · simp only [CommandName.validate, validateZAddRequest, length_cons, hlength, tail_cons,
      hparse]
    rw [if_neg (by omega)]
    rfl
  · simp only [CommandName.effect, hparse]
    rfl
  · simp only [Mutation.apply, if_neg hsound, zsetOfEntries_of_ordered rep.ordered_entries]
    rfl

theorem snapshot_zset (rep : ZSetRep) : (zset rep).snapshot order = .zset rep.entries := by
  rw [snapshot, ZSetRep.len_eq, rangeByRank_all]

/-- **The commands of a value without a deadline make it**, where nothing was. -/
theorem rewrite_explains {rt : Runtime} (hfloat : rt.RoundTrips) {order : MapOrder Bytes}
    {key : Bytes} {value : ValueObject} (hfinite : value.payload.logical.FiniteScores)
    (hids : value.payload.logical.NonnegIDs) {now : Int}
    (hdeadline : ∀ data, value.payload = .string data → value.expiresAt ≤ 0) {ks : Keyspace}
    (hks : ks key = none) :
    ∃ records, List.Forall₂ (Denotes rt)
        (rewriteFramesForEntry rt (snapshotEntry order key value) now) records ∧
      CommutingLog.run LogRecord.act records ks =
        some (update ks key (some ⟨value.payload.logical, 0⟩)) ∧
      ∀ record ∈ records, record.keys = [key] := by
  have hsound := value.sound
  unfold rewriteFramesForEntry snapshotEntry
  cases hpayload : value.payload with
  | string data =>
    have hno : ¬0 < value.expiresAt := not_lt.mpr (hdeadline data hpayload)
    simp only [snapshot]
    rw [if_neg (fun h => hno h.1), if_neg hno]
    exact explains_command (.set data 0) (fun _ => rfl) (fun _ => rfl) trivial rfl rfl hks
  | list items =>
    rw [hpayload] at hsound
    simp only [snapshot]
    rw [if_neg hsound]
    match items, hsound with
    | item :: items, hsound =>
      exact explains_command (.push false (item :: items)) (fun _ => rfl) (fun _ => rfl) trivial
        rfl rfl hks
  | hash rep =>
    rw [hpayload] at hsound
    obtain ⟨hne, hrecords⟩ := explains_hash order hsound hks
    simp only [snapshot]
    rw [if_neg hne]
    exact hrecords
  | set rep =>
    rw [hpayload] at hsound
    obtain ⟨hne, hrecords⟩ := explains_set order hsound hks
    simp only [snapshot]
    rw [if_neg hne]
    exact hrecords
  | zset rep =>
    rw [hpayload] at hsound hfinite
    rw [snapshot_zset]
    simp only
    rw [if_neg hsound]
    exact explains_zset hfloat hsound hfinite hks
  | stream stream =>
    rw [hpayload] at hsound hids
    exact explains_stream hsound hids hks

/-! ## Strings with a deadline -/

/-- The deadline that a time to live gives at a reading of the clock. -/
def deadlineAt (reading : Instant) (ttl : Int) : Int :=
  addMillis reading (wrap64 (ttl * 1000000))

theorem parseExpiryMillis_px (rt : Runtime) (hpos : 0 < ttl) (hrange : InInt64 ttl)
    (now : Instant) :
    parseExpiryMillis rt [ascii "PX", formatInt ttl] now = .ok (deadlineAt now ttl) := by
  have hupper : rt.toUpper (ascii "PX") = ascii "PX" :=
    rt.toUpper_of_upper (by decide) (by decide)
  simp only [parseExpiryMillis, readInt64_formatInt hrange, hupper]
  rw [if_neg (by omega), if_neg (by decide), if_pos trivial]
  rfl

/-- Executing the SET of a string with a deadline counts it from the replay. -/
theorem execute_set_px (x : Executor) (key data : Bytes) (hpos : 0 < ttl)
    (hrange : InInt64 ttl) (env : Env) (w : World) :
    ∃ w' outcome, x.executeDetailed .replay (fun _ => env)
        (rewriteCommand .set [key, data, ascii "PX", formatInt ttl]) w = (w', outcome) ∧
      w'.store = (w.store.mutate key (.set data (deadlineAt (env.clock 1) ttl)) (env.after 2)).1 ∧
      match (w.store.mutate key (.set data (deadlineAt (env.clock 1) ttl)) (env.after 2)).2 with
      | .ok _ => ∃ result, outcome = .ok result
      | .error _ => ∃ failure, outcome = .error failure := by
  have hparse := parseExpiryMillis_px x.rt hpos hrange
  obtain ⟨hvalid, -⟩ := @set_of_parse x.rt key data _ _ _ _ (hparse (env.clock 0))
    (hparse (env.clock 0))
  obtain ⟨-, heffect⟩ := @set_of_parse x.rt key data _ _ _ _ (hparse (env.clock 1))
    (hparse (env.clock 1))
  exact x.execute_write (decode_rewriteCommand x.rt .set _) hvalid heffect w

theorem replay_set_px (x : Executor) (key data : Bytes) {ttl : Int} (hpos : 0 < ttl)
    (hrange : InInt64 ttl) (env : Env) {w : World} (hplain : w.store.maxMemoryEnabled = false) :
    ∃ w', x.replay [(env, rewriteCommand .set [key, data, ascii "PX", formatInt ttl])] w =
        some w' ∧
      w'.store.view = update w.store.view key
        (some ⟨.string data, deadlineAt (env.clock 1) ttl⟩) ∧
      w'.store.maxMemoryEnabled = false := by
  obtain ⟨w', outcome, hexecute, hstore, houtcome⟩ :=
    execute_set_px x key data hpos hrange env w
  have happly : (Mutation.set data (deadlineAt (env.clock 1) ttl)).apply ((env.after 2).now 0)
      (liveEntry (w.store.view key) ((env.after 2).now 0)) =
        .ok (some ⟨.string data, deadlineAt (env.clock 1) ttl⟩) := rfl
  obtain ⟨hok, hview⟩ := (mutate_acts hplain key _ (env.after 2)).of_apply happly
  have hlimit := (w.store.mutate_spec key (.set data (deadlineAt (env.clock 1) ttl))
    (env.after 2)).1
  rw [hok] at houtcome
  obtain ⟨result, rfl⟩ := houtcome
  refine ⟨w', x.replay_cons hexecute [], ?_, ?_⟩
  · rw [hstore]
    exact hview
  · rw [hstore]
    exact (enabled_of_eq hlimit).trans hplain

/-- Under any limit, a SET that was executed put its string and its deadline under the key. -/
theorem replay_set_px_entry {x : Executor} {data : Bytes} (hpos : 0 < ttl)
    (hrange : InInt64 ttl) {env : Env} {w w' : World}
    (hreplay : x.replay [(env, rewriteCommand .set [key, data, ascii "PX", formatInt ttl])] w =
      some w') : w'.store.view key = some ⟨.string data, deadlineAt (env.clock 1) ttl⟩ := by
  obtain ⟨w₁, outcome, hexecute, hstore, houtcome⟩ :=
    execute_set_px x key data hpos hrange env w
  rw [replay, hexecute] at hreplay
  split at houtcome
  · rename_i evicted hok
    obtain ⟨result, rfl⟩ := houtcome
    obtain rfl : w₁ = w' := Option.some.inj hreplay
    rw [hstore]
    exact (Except.ok.inj (mutate_entry hok)).symm
  · obtain ⟨failure, rfl⟩ := houtcome
    cases hreplay

/-- A time to live that can be counted in nanoseconds. -/
theorem deadlineAt_in_range (reading : Instant) (hnonneg : 0 ≤ ttl)
    (hrange : ttl ≤ 9223372036854) : deadlineAt reading ttl = reading.millis + ttl := by
  rw [deadlineAt, wrap64_of_inInt64 (by unfold InInt64; omega), addMillis_millis]

/-- **The deadline comes back** exactly at the millisecond of the rewrite, if the time to live can be
counted in nanoseconds. -/
theorem deadlineAt_eq_iff {now reading : Instant} {d : Int} (hbefore : now.millis < d) :
    deadlineAt reading (d - now.millis) = d ↔
      reading.millis = now.millis ∧ d - now.millis ≤ 9223372036854 := by
  by_cases hrange : d - now.millis ≤ 9223372036854
  · rw [deadlineAt_in_range reading (by omega) hrange]
    omega
  · refine ⟨fun heq => ?_, fun h => absurd h.2 hrange⟩
    -- the product has wrapped around at least once, so it is too small by far
    have hnow := now.millis_nonneg
    have hreading := reading.bounded
    have hwrap : wrap64 ((d - now.millis) * 1000000) ≤ (d - now.millis) * 1000000 - 2 ^ 64 := by
      have hmod := Int.bmod_add_bdiv ((d - now.millis) * 1000000) (2 ^ 64)
      have hhigh := Int.bmod_lt (x := (d - now.millis) * 1000000) (m := 2 ^ 64) (by decide)
      unfold wrap64
      omega
    unfold deadlineAt addMillis at heq
    omega

theorem rewriteFramesForEntry_deadline (rt : Runtime) {entry : SnapshotEntry} {data : Bytes}
    (hvalue : entry.value = .string data) {now : Int} (hnonneg : 0 ≤ now)
    (hbefore : now < entry.expiresAt) :
    rewriteFramesForEntry rt entry now =
      [rewriteCommand .set [entry.key, data, ascii "PX", formatInt (entry.expiresAt - now)]] := by
  unfold rewriteFramesForEntry
  rw [hvalue]
  simp only
  rw [if_neg (by omega), if_pos (by omega), if_neg (by omega)]

/-- **When a rewrite keeps a deadline.**  A string is rewritten at `n`, before its deadline, and its
SET is executed at some reading of the clock.  The key gets its old deadline back, and is not
live past it, exactly if the replay reads the very millisecond of the rewrite and the time left can
be counted in nanoseconds. -/
theorem rewritten_deadline_iff (x : Executor) (entry : SnapshotEntry) (data : Bytes)
    (hvalue : entry.value = .string data) (hd : InInt64 entry.expiresAt) (n : Instant)
    (hn : n.millis < entry.expiresAt) (env : Env) (w : World) :
    (w.store.maxMemoryEnabled = false →
      ∃ w', x.replay ((rewriteFramesForEntry x.rt entry n.millis).map (Prod.mk env)) w = some w') ∧
    ∀ w', x.replay ((rewriteFramesForEntry x.rt entry n.millis).map (Prod.mk env)) w = some w' →
      ((((env.clock 1).millis ≤ entry.expiresAt →
            (w'.store.view entry.key).map Entry.expiresAt = some entry.expiresAt) ∧
          (entry.expiresAt < (env.clock 1).millis →
            w'.store.view.valuesAt (env.clock 1).millis entry.key = none)) ↔
        (env.clock 1).millis = n.millis ∧ entry.expiresAt - n.millis ≤ 9223372036854) := by
  have hnonneg := n.millis_nonneg
  have hpos : 0 < entry.expiresAt - n.millis := by omega
  have hrange : InInt64 (entry.expiresAt - n.millis) := by
    unfold InInt64 at hd ⊢
    omega
  rw [rewriteFramesForEntry_deadline x.rt hvalue hnonneg hn, map_singleton]
  refine ⟨fun hplain => ?_, fun w' hreplay => ?_⟩
  · obtain ⟨w', hreplay, -⟩ := replay_set_px x entry.key data hpos hrange env hplain
    exact ⟨w', hreplay⟩
  · have hentry := replay_set_px_entry hpos hrange hreplay
    by_cases ht : (env.clock 1).millis ≤ entry.expiresAt
    · rw [← deadlineAt_eq_iff hn, hentry, Option.map_some, Option.some.injEq]
      exact ⟨fun h => h.1 ht, fun h => ⟨fun _ => h, fun hlt => absurd ht (not_le.mpr hlt)⟩⟩
    · -- a reading past the deadline is in range, so the time left starts again
      refine ⟨fun h => ?_, fun h => absurd (h.1.trans_le hn.le) ht⟩
      have hbound := (env.clock 1).bounded
      have hafter : deadlineAt (env.clock 1) (entry.expiresAt - n.millis) =
          (env.clock 1).millis + (entry.expiresAt - n.millis) :=
        deadlineAt_in_range _ hpos.le (by unfold Instant.millis at ht hnonneg ⊢; omega)
      have hlive : ¬isExpired (deadlineAt (env.clock 1) (entry.expiresAt - n.millis))
          (env.clock 1).millis = true := by
        rw [hafter, isExpired_iff]
        omega
      have hnone := h.2 (not_le.mp ht)
      rw [Keyspace.valuesAt_of_some hentry, if_neg hlive] at hnone
      cases hnone

/-- A deadline of five seconds, rewritten and replayed in the first second. -/
theorem rewritten_deadline_same_second :
    ∃ w', quiet.replay
        ((rewriteFramesForEntry quiet.rt ⟨ascii "k", 5000, .string (ascii "v")⟩
          firstSecond.millis).map (Prod.mk (Env.frozen firstSecond))) initial = some w' ∧
      (w'.store.view (ascii "k")).map Entry.expiresAt = some 5000 := by
  obtain ⟨hreplays, hkeeps⟩ := rewritten_deadline_iff quiet
    ⟨ascii "k", 5000, .string (ascii "v")⟩ (ascii "v") rfl (by decide) firstSecond (by decide)
    (Env.frozen firstSecond) initial
  obtain ⟨w', hreplay⟩ := hreplays rfl
  exact ⟨w', hreplay, ((hkeeps w' hreplay).mpr (by decide)).1 (by decide)⟩

/-- A deadline of five seconds, rewritten in the first second and replayed in the second one, is at
six seconds. -/
theorem rewritten_deadline_moves :
    (Instant.ofMillis 2000 (by decide)).millis ≤ 5000 ∧
    ∃ w', quiet.replay
        ((rewriteFramesForEntry quiet.rt ⟨ascii "k", 5000, .string (ascii "v")⟩
          firstSecond.millis).map
            (Prod.mk (Env.frozen (Instant.ofMillis 2000 (by decide))))) initial = some w' ∧
      (w'.store.view (ascii "k")).map Entry.expiresAt = some 6000 := by
  obtain ⟨w', hreplay, hview, -⟩ := @replay_set_px quiet (ascii "k") (ascii "v") 4000
    (by decide) (by decide) (Env.frozen (Instant.ofMillis 2000 (by decide))) initial rfl
  refine ⟨by decide, w', hreplay, ?_⟩
  rw [hview, update_self]
  rfl

end Stash
