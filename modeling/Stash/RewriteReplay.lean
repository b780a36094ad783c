import Stash.AofRewrite

/-!
# Replaying a rewrite

The frames of a snapshot are executed on an empty store.  Each key has its own frames, so the store
that results is described key by key: `restored` is what the frames of one value leave
(`replay_entry`), and `replay_entries` collects them.  From this follows when the values of the
snapshot come back (`rewrite_keeps_values_iff`), and that a store without deadlines is explained by
its rewrite (`generateRewrite_explains`).
-/

namespace Stash

open DecimalText GoMap Handlers List Function Executor

/-! ## The frames of one value -/

/-- What the frames of a value leave under its key. -/
def restored (value : ValueObject) (now : Int) (reading : Instant) : Option Entry :=
  match value.payload with
  | .string data =>
    if value.expiresAt ≤ 0 then some ⟨.string data, 0⟩
    else if value.expiresAt ≤ now then none
    else some ⟨.string data, deadlineAt reading (value.expiresAt - now)⟩
  | payload => some ⟨payload.logical, 0⟩

/-- The frames of an entry, each executed in surroundings of its own. -/
def entryLog (rt : Runtime) (now : Int) (envs : Nat → Env) (entry : SnapshotEntry) :
    List (Env × Value) :=
  (rewriteFramesForEntry rt entry now).zipIdx.map fun frame => (envs frame.2, frame.1)

theorem entryLog_frames (rt : Runtime) (now : Int) (envs : Nat → Env) (entry : SnapshotEntry) :
    (entryLog rt now envs entry).map Prod.snd = rewriteFramesForEntry rt entry now := by
  rw [entryLog, map_map]
  exact zipIdx_map_fst 0 _

variable {rt : Runtime} {value : ValueObject} {key : Bytes} {order : MapOrder Bytes}

theorem entryLog_of_singleton {now : Int} {entry : SnapshotEntry} {frame : Value}
    (h : rewriteFramesForEntry rt entry now = [frame]) (envs : Nat → Env) :
    entryLog rt now envs entry = [(envs 0, frame)] := by
  rw [entryLog, h]
  rfl

theorem restored_of_no_deadline
    (h : ∀ data, value.payload = .string data → value.expiresAt ≤ 0) (now : Int)
    (reading : Instant) : restored value now reading = some ⟨value.payload.logical, 0⟩ := by
  unfold restored
  split
  · rename_i data hdata
    rw [if_pos (h data hdata), hdata]
    rfl
  · rfl

/-- **The frames of a value**, executed where nothing was. -/
theorem replay_entry {x : Executor} (hfloat : x.rt.RoundTrips) {order : MapOrder Bytes}
    {key : Bytes} {value : ValueObject} (hfinite : value.payload.logical.FiniteScores)
    (hids : value.payload.logical.NonnegIDs) (hd : InInt64 value.expiresAt) (n : Instant)
    (envs : Nat → Env) {w : World} (hplain : w.store.maxMemoryEnabled = false)
    (hnone : w.store.view key = none) :
    ∃ w', x.replay (entryLog x.rt n.millis envs (snapshotEntry order key value)) w = some w' ∧
      w'.store.view = update w.store.view key
        (restored value n.millis ((envs 0).clock 1)) ∧ w'.store.maxMemoryEnabled = false := by
  have hnonneg := n.millis_nonneg
  by_cases hstring : ∀ data, value.payload = .string data → value.expiresAt ≤ 0
  · -- the frames can be executed at any time
    obtain ⟨records, hdenotes, hrun, hkeys⟩ :=
      @rewrite_explains x.rt hfloat order key value hfinite hids n.millis hstring _ hnone
    rw [restored_of_no_deadline hstring]
    refine replay_of_denotes hdenotes (entryLog_frames _ _ envs _) hplain ?_ hrun
    intro record hrecord k hk
    rw [hkeys record hrecord, mem_singleton] at hk
    subst hk
    intro e he
    rw [hnone] at he
    cases he
  · push Not at hstring
    obtain ⟨data, hdata, hpos⟩ := hstring
    have hvalue : (snapshotEntry order key value).value = .string data := by
      rw [snapshotEntry, hdata]
      rfl
    by_cases hlate : value.expiresAt ≤ n.millis
    · -- the deadline is over: there is no frame
      have hframes : entryLog x.rt n.millis envs (snapshotEntry order key value) = [] := by
        rw [entryLog, rewriteFramesForEntry, hvalue]
        simp only
        rw [if_pos ⟨hpos, hlate⟩]
        rfl
      have hrestored : restored value n.millis ((envs 0).clock 1) = none := by
        rw [restored, hdata]
        simp only
        rw [if_neg (not_le.mpr hpos), if_pos hlate]
      refine ⟨w, by rw [hframes]; rfl, ?_, hplain⟩
      rw [hrestored, ← hnone, update_eq_self]
    · have hframes := rewriteFramesForEntry_deadline x.rt hvalue hnonneg (not_le.mp hlate)
      have hrestored : restored value n.millis ((envs 0).clock 1) =
          some ⟨.string data, deadlineAt ((envs 0).clock 1) (value.expiresAt - n.millis)⟩ := by
        rw [restored, hdata]
        simp only
        rw [if_neg (not_le.mpr hpos), if_neg hlate]
      rw [entryLog_of_singleton hframes, hrestored]
      refine replay_set_px x key data (sub_pos.mpr (not_le.mp hlate)) ?_ (envs 0) hplain
      unfold InInt64 at hd ⊢
      omega

/-- The pairs of a ZADD with an infinite score are refused. -/
theorem parseScoreMembers_infinite (hfloat : rt.RoundTrips)
    {entries : List ZSetEntry} (h : ¬∀ entry ∈ entries, entry.score.Finite) :
    ∃ err, parseScoreMembers rt (entries.flatMap fun e => [rt.formatFloat e.score.bits, e.member]) =
      .error err := by
  induction entries with
  | nil => exact absurd (fun _ hentry => absurd hentry not_mem_nil) h
  | cons entry entries ih =>
    change ∃ err, parseScoreMembers rt (rt.formatFloat entry.score.bits :: entry.member ::
      entries.flatMap fun e => [rt.formatFloat e.score.bits, e.member]) = .error err
    rw [parseScoreMembers]
    by_cases hfinite : entry.score.Finite
    · have hrest : ¬∀ e ∈ entries, e.score.Finite := fun hrest =>
        h (forall_mem_cons.mpr ⟨hfinite, hrest⟩)
      obtain ⟨err, herr⟩ := ih hrest
      rw [parseFloatArgument_formatFloat hfloat hfinite, herr]
      exact ⟨err, rfl⟩
    · have hrefused : parseFloatArgument rt (rt.formatFloat entry.score.bits) =
          .error .valueNotFloat := by
        unfold parseFloatArgument
        rw [hfloat entry.score]
        exact dif_neg hfinite
      rw [hrefused]
      exact ⟨_, rfl⟩

theorem replay_entry_infinite {x : Executor} (hfloat : x.rt.RoundTrips)
    (h : ¬value.payload.logical.FiniteScores) (now : Int) (envs : Nat → Env) (w : World) :
    x.replay (entryLog x.rt now envs (snapshotEntry order key value)) w = none := by
  have hsound := value.sound
  match hpayload : value.payload with
  | .zset rep =>
    rw [hpayload] at h hsound
    obtain ⟨err, herr⟩ := parseScoreMembers_infinite hfloat h
    have hframes : rewriteFramesForEntry x.rt (snapshotEntry order key value) now =
        [rewriteCommand .zAdd
          (key :: rep.entries.flatMap fun e => [x.rt.formatFloat e.score.bits, e.member])] := by
      rw [rewriteFramesForEntry, snapshotEntry, hpayload, snapshot_zset]
      simp only
      rw [if_neg hsound]
    obtain ⟨err, hinvalid⟩ : ∃ err, CommandName.zAdd.validate x.rt
        (key :: rep.entries.flatMap fun e => [x.rt.formatFloat e.score.bits, e.member])
        ((envs 0).clock 0) = .error err := by
      simp only [CommandName.validate, validateZAddRequest, tail_cons, herr]
      split
      · exact ⟨_, rfl⟩
      · exact ⟨_, rfl⟩
    rw [entryLog_of_singleton hframes]
    exact x.replay_cons_error
      (x.execute_invalid (decode_rewriteCommand x.rt .zAdd _) hinvalid w) []
  | .string _ | .list _ | .hash _ | .set _ | .stream _ =>
    rw [hpayload] at h
    exact absurd trivial h

/-! ## The frames of a snapshot -/

/-- The frames of some entries, in their order; the surroundings are given by key. -/
def rewriteLog (rt : Runtime) (now : Int) (envs : Bytes → Nat → Env)
    (entries : List SnapshotEntry) : List (Env × Value) :=
  entries.flatMap fun entry => entryLog rt now (envs entry.key) entry

section Entries

variable {x : Executor} (hfloat : x.rt.RoundTrips) (order : MapOrder Bytes) (n : Instant)
  (envs : Bytes → Nat → Env)

include hfloat

/-- **The frames of a snapshot**, executed where none of its keys was. -/
theorem replay_entries {live : List (Bytes × ValueObject)} (hnodup : (live.map Prod.fst).Nodup)
    (hfinite : ∀ p ∈ live, p.2.payload.logical.FiniteScores)
    (hids : ∀ p ∈ live, p.2.payload.logical.NonnegIDs) (hd : ∀ p ∈ live, InInt64 p.2.expiresAt)
    {w : World} (hplain : w.store.maxMemoryEnabled = false)
    (hnone : ∀ p ∈ live, w.store.view p.1 = none) :
    ∃ w', x.replay (rewriteLog x.rt n.millis envs
        (live.map fun p => snapshotEntry order p.1 p.2)) w = some w' ∧
      (∀ p ∈ live, w'.store.view p.1 = restored p.2 n.millis ((envs p.1 0).clock 1)) ∧
      ∀ k, k ∉ live.map Prod.fst → w'.store.view k = w.store.view k := by
  induction live generalizing w with
  | nil => exact ⟨w, rfl, fun p hp => absurd hp not_mem_nil, fun _ _ => rfl⟩
  | cons p live ih =>
    obtain ⟨hfinite₁, hfinite⟩ := forall_mem_cons.mp hfinite
    obtain ⟨hids₁, hids⟩ := forall_mem_cons.mp hids
    obtain ⟨hd₁, hd⟩ := forall_mem_cons.mp hd
    obtain ⟨hnone₁, hnone⟩ := forall_mem_cons.mp hnone
    rw [map_cons, nodup_cons] at hnodup
    obtain ⟨w₁, hfirst, hview₁, hplain₁⟩ :=
      @replay_entry x hfloat order p.1 p.2 hfinite₁ hids₁ hd₁ n (envs p.1) w hplain hnone₁
    have hother : ∀ k, k ≠ p.1 → w₁.store.view k = w.store.view k := fun k hk => by
      rw [hview₁, update_of_ne hk]
    obtain ⟨w', hrest, hview, hframe⟩ := ih hnodup.2 hfinite hids hd hplain₁ fun q hq => by
      rw [hother q.1 fun heq => hnodup.1 (heq ▸ mem_map_of_mem hq)]
      exact hnone q hq
    refine ⟨w', ?_, ?_, ?_⟩
    · rw [rewriteLog, map_cons, flatMap_cons, replay_append]
      change (x.replay (entryLog x.rt n.millis (envs p.1) (snapshotEntry order p.1 p.2)) w).bind _ =
        some w'
      rw [hfirst]
      exact hrest
    · rw [forall_mem_cons]
      refine ⟨?_, hview⟩
      rw [hframe p.1 hnodup.1, hview₁, update_self]
    · intro k hk
      rw [map_cons, mem_cons, not_or] at hk
      rw [hframe k hk.2, hother k hk.1]

/-- An infinite score anywhere ends the replay with an error. -/
theorem replay_entries_infinite {live : List (Bytes × ValueObject)}
    (hnodup : (live.map Prod.fst).Nodup) (hinfinite : ¬∀ p ∈ live, p.2.payload.logical.FiniteScores)
    (hids : ∀ p ∈ live, p.2.payload.logical.NonnegIDs) (hd : ∀ p ∈ live, InInt64 p.2.expiresAt)
    {w : World} (hplain : w.store.maxMemoryEnabled = false)
    (hnone : ∀ p ∈ live, w.store.view p.1 = none) :
    x.replay (rewriteLog x.rt n.millis envs
      (live.map fun p => snapshotEntry order p.1 p.2)) w = none := by
  induction live generalizing w with
  | nil => exact absurd (fun _ hp => absurd hp not_mem_nil) hinfinite
  | cons p live ih =>
    obtain ⟨hids₁, hids⟩ := forall_mem_cons.mp hids
    obtain ⟨hd₁, hd⟩ := forall_mem_cons.mp hd
    obtain ⟨hnone₁, hnone⟩ := forall_mem_cons.mp hnone
    rw [map_cons, nodup_cons] at hnodup
    rw [rewriteLog, map_cons, flatMap_cons, replay_append]
    change (x.replay (entryLog x.rt n.millis (envs p.1) (snapshotEntry order p.1 p.2)) w).bind _ =
      none
    by_cases hfinite₁ : p.2.payload.logical.FiniteScores
    · obtain ⟨w₁, hfirst, hview₁, hplain₁⟩ :=
        @replay_entry x hfloat order p.1 p.2 hfinite₁ hids₁ hd₁ n (envs p.1) w hplain hnone₁
      rw [hfirst]
      refine ih hnodup.2 (fun h => hinfinite (forall_mem_cons.mpr ⟨hfinite₁, h⟩)) hids hd
        hplain₁ fun q hq => ?_
      have hne : q.1 ≠ p.1 := fun heq => hnodup.1 (heq ▸ mem_map_of_mem hq)
      rw [hview₁, update_of_ne hne]
      exact hnone q hq
    · rw [replay_entry_infinite hfloat hfinite₁]
      rfl

end Entries

/-! ## When the values come back -/

/-- No sorted set has an infinite score. -/
def SnapshotEntry.FiniteScores (entry : SnapshotEntry) : Prop :=
  match entry.value with
  | .zset entries => ∀ e ∈ entries, e.score.Finite
  | _ => True

/-- A string with a deadline has time left at the rewrite, and the time left, counted from the
replay, reaches `t`. -/
def SnapshotEntry.Renewed (entry : SnapshotEntry) (now : Int) (reading : Instant) (t : Int) :
    Prop :=
  match entry.value with
  | .string _ =>
    0 < entry.expiresAt → now < entry.expiresAt ∧
      ¬isExpired (deadlineAt reading (entry.expiresAt - now)) t = true
  | _ => True

theorem finiteScores_snapshotEntry :
    (snapshotEntry order key value).FiniteScores ↔ value.payload.logical.FiniteScores := by
  unfold SnapshotEntry.FiniteScores snapshotEntry
  cases value.payload with
  | zset rep =>
    rw [snapshot_zset]
    rfl
  | string | list | hash | set | stream => rfl

/-- The value of a live key comes back exactly if it is renewed. -/
theorem restored_iff {now t : Int}
    {reading : Instant} {ks : Keyspace} (hks : ks key = restored value now reading) :
    ks.valuesAt t key = some value.payload.logical ↔
      (snapshotEntry order key value).Renewed now reading t := by
  by_cases hstring : ∀ data, value.payload = .string data → value.expiresAt ≤ 0
  · rw [restored_of_no_deadline hstring] at hks
    rw [Keyspace.valuesAt_of_some hks, isExpired_zero, if_neg Bool.false_ne_true]
    refine iff_of_true rfl ?_
    unfold SnapshotEntry.Renewed
    split
    · rename_i data hdata
      intro hpos
      cases hpayload : value.payload with
      | string data' => exact absurd (hstring data' hpayload) (not_le.mpr hpos)
      | list | hash | set | zset | stream =>
        rw [snapshotEntry, hpayload] at hdata
        cases hdata
    · trivial
  · push Not at hstring
    obtain ⟨data, hdata, hpos⟩ := hstring
    have hrenewed : (snapshotEntry order key value).Renewed now reading t ↔
        now < value.expiresAt ∧
          ¬isExpired (deadlineAt reading (value.expiresAt - now)) t = true := by
      simp only [SnapshotEntry.Renewed, snapshotEntry, hdata, Payload.snapshot]
      exact ⟨fun h => h hpos, fun h _ => h⟩
    rw [hrenewed]
    unfold restored at hks
    rw [hdata] at hks ⊢
    simp only at hks
    rw [if_neg (not_le.mpr hpos)] at hks
    by_cases hlate : value.expiresAt ≤ now
    · rw [if_pos hlate] at hks
      rw [Keyspace.valuesAt_of_none hks]
      exact iff_of_false (fun h => by cases h) fun h => absurd h.1 (not_lt.mpr hlate)
    · rw [if_neg hlate] at hks
      rw [Keyspace.valuesAt_of_some hks]
      by_cases hexpired : isExpired (deadlineAt reading (value.expiresAt - now)) t = true
      · rw [if_pos hexpired]
        exact iff_of_false (fun h => by cases h) fun h => h.2 hexpired
      · rw [if_neg hexpired]
        exact ⟨fun _ => ⟨not_le.mp hlate, hexpired⟩, fun _ => rfl⟩

/-! ## The live keys of a store -/

/-- The pairs are the keys that are live at `now` with their values, each once. -/
structure ListsLive (s : Store) (now : Int) (live : List (Bytes × ValueObject)) : Prop where
  nodup : (live.map Prod.fst).Nodup
  mem : ∀ p, p ∈ live ↔ s.lookup p.1 = some p.2 ∧ isExpired p.2.expiresAt now = false

/-- A rearranged list of images is a list of images. -/
theorem exists_perm_of_perm_map {α β : Type} {f : α → β} {l : List β} {l' : List α}
    (h : l.Perm (l'.map f)) : ∃ l'' : List α, l''.Perm l' ∧ l = l''.map f := by
  have hself : List.Forall₂ (fun b a => b = f a) (l'.map f) l' :=
    forall₂_map_left_iff.mpr (forall₂_same.mpr fun _ _ => rfl)
  obtain ⟨l'', hforall, hperm⟩ := perm_comp_forall₂ h hself
  refine ⟨l'', hperm, ?_⟩
  have heq : List.Forall₂ (· = ·) l (l''.map f) := forall₂_map_right_iff.mpr hforall
  rwa [forall₂_eq_eq_eq] at heq

/-- The entries of a snapshot, in any order, come from the live keys. -/
theorem exists_listsLive {s : Store} {env : Env} {entries : List SnapshotEntry}
    (h : entries.Perm (s.snapshotAll env)) :
    ∃ live, ListsLive s (env.now 0) live ∧
      entries = live.map fun p => snapshotEntry (env.order 1) p.1 p.2 := by
  obtain ⟨live, hlive, rfl⟩ : ∃ live : List (Bytes × ValueObject),
      live.Perm (s.liveEntries (env.now 0) (env.order 0)) ∧
        entries = live.map fun p => snapshotEntry (env.order 1) p.1 p.2 :=
    exists_perm_of_perm_map h
  refine ⟨live, ⟨?_, fun p => ?_⟩, rfl⟩
  · rw [(hlive.map Prod.fst).nodup_iff]
    exact (s.nodup_allEntries (env.order 0)).sublist (filter_sublist.map Prod.fst)
  · rw [hlive.mem_iff, Store.liveEntries, mem_filter, Bool.not_eq_true']
    exact and_congr_left fun _ => Store.mem_allEntries

section ListsLive

variable {s : Store} {now : Int} {live : List (Bytes × ValueObject)} (h : ListsLive s now live)

include h

variable {p : Bytes × ValueObject}

theorem ListsLive.lookup (hp : p ∈ live) : s.lookup p.1 = some p.2 :=
  ((h.mem p).mp hp).1

theorem ListsLive.view (hp : p ∈ live) : s.view p.1 = some p.2.entry := by
  rw [Store.view, h.lookup hp]
  rfl

/-- The value of a listed key is there until its deadline. -/
theorem ListsLive.valuesAt_mem (hp : p ∈ live) {t : Int}
    (hbefore : 0 < p.2.expiresAt → t ≤ p.2.expiresAt) :
    s.view.valuesAt t p.1 = some p.2.payload.logical := by
  have halive : ¬isExpired p.2.expiresAt t = true := by
    rw [isExpired_iff]
    rintro ⟨hpos, hlt⟩
    exact absurd (hbefore hpos) (not_le.mpr hlt)
  rw [Keyspace.valuesAt_of_some (h.view hp)]
  exact if_neg halive

/-- A key that is not listed was absent, or had expired. -/
theorem ListsLive.view_notMem {key : Bytes} (hkey : key ∉ live.map Prod.fst) :
    s.view key = none ∨ ∃ e, s.view key = some e ∧ isExpired e.expiresAt now = true := by
  cases hview : s.view key with
  | none => exact .inl rfl
  | some e =>
    obtain ⟨value, hlookup, rfl⟩ := Option.map_eq_some_iff.mp hview
    refine .inr ⟨_, rfl, ?_⟩
    by_contra halive
    exact hkey (mem_map_of_mem
      ((h.mem (key, value)).mpr ⟨hlookup, Bool.eq_false_iff.mpr halive⟩))

theorem ListsLive.valuesAt_notMem {key : Bytes} (hkey : key ∉ live.map Prod.fst) {t : Int}
    (hafter : now ≤ t) : s.view.valuesAt t key = none := by
  rcases h.view_notMem hkey with hview | ⟨e, hview, hexpired⟩
  · exact Keyspace.valuesAt_of_none hview t
  · rw [Keyspace.valuesAt_of_some hview]
    exact if_pos (isExpired_mono hafter hexpired)

end ListsLive

/-! ## Stores without deadlines -/

/-- The frames of values without a deadline explain them, wherever their keys are free. -/
theorem entries_explain {rt : Runtime} (hfloat : rt.RoundTrips) (order : MapOrder Bytes) (now : Int)
    {live : List (Bytes × ValueObject)} (hnodup : (live.map Prod.fst).Nodup)
    (hgood : ∀ p ∈ live, p.2.payload.logical.FiniteScores ∧ p.2.payload.logical.NonnegIDs ∧
      p.2.expiresAt = 0) {ks : Keyspace} (hnone : ∀ p ∈ live, ks p.1 = none) :
    ∃ ks', Explains rt (live.flatMap fun p =>
        rewriteFramesForEntry rt (snapshotEntry order p.1 p.2) now) ks ks' ∧
      (∀ p ∈ live, ks' p.1 = some p.2.entry) ∧ ∀ k, k ∉ live.map Prod.fst → ks' k = ks k := by
  induction live generalizing ks with
  | nil => exact ⟨ks, .nil _ _, fun p hp => absurd hp not_mem_nil, fun _ _ => rfl⟩
  | cons p live ih =>
    obtain ⟨⟨hfinite, hids, hd⟩, hgood⟩ := forall_mem_cons.mp hgood
    obtain ⟨hnone₁, hnone⟩ := forall_mem_cons.mp hnone
    rw [map_cons, nodup_cons] at hnodup
    obtain ⟨records, hdenotes, hrun, -⟩ := @rewrite_explains rt hfloat order p.1 p.2 hfinite hids now
      (fun _ _ => hd.le) ks hnone₁
    obtain ⟨ks', hrest, hentries, hframe⟩ :=
      @ih hnodup.2 hgood (update ks p.1 (some ⟨p.2.payload.logical, 0⟩)) fun q hq => by
        have hne : q.1 ≠ p.1 := fun heq => hnodup.1 (heq ▸ mem_map_of_mem hq)
        rw [update_of_ne hne]
        exact hnone q hq
    have hfirst : Explains rt (rewriteFramesForEntry rt (snapshotEntry order p.1 p.2) now) ks
        (update ks p.1 (some ⟨p.2.payload.logical, 0⟩)) := ⟨records, hdenotes, hrun⟩
    refine ⟨ks', hfirst.append hrest, forall_mem_cons.mpr ⟨?_, hentries⟩, fun k hk => ?_⟩
    · rw [hframe p.1 hnodup.1, update_self, ValueObject.entry, hd]
    · rw [map_cons, mem_cons, not_or] at hk
      rw [hframe k hk.2, update_of_ne hk.1]

/-- **The rewrite of a store without deadlines explains it.** -/
theorem generateRewrite_explains (hfloat : rt.RoundTrips) {s : Store} (hdead : NoDeadlines s.view)
    (hgood : ∀ key e, s.view key = some e → e.value.FiniteScores ∧ e.value.NonnegIDs) (env : Env)
    (now : Int) :
    Explains rt (generateRewrite rt (s.snapshotAll env) now) (fun _ => none) s.view := by
  obtain ⟨live, hlive, hentries⟩ :=
    exists_listsLive (perm_sortBy SnapshotEntry.key (s.snapshotAll env))
  have hgood' : ∀ p ∈ live, p.2.payload.logical.FiniteScores ∧
      p.2.payload.logical.NonnegIDs ∧ p.2.expiresAt = 0 := by
    intro p hp
    obtain ⟨hfinite, hids⟩ := hgood p.1 _ (hlive.view hp)
    exact ⟨hfinite, hids, hdead p.1 _ (hlive.view hp)⟩
  obtain ⟨ks, hexplains, hthere, hother⟩ := @entries_explain rt hfloat (env.order 1) now live
    hlive.nodup hgood' (fun _ => none) fun _ _ => rfl
  have hview : ks = s.view := by
    funext key
    by_cases hkey : key ∈ live.map Prod.fst
    · obtain ⟨p, hp, rfl⟩ := mem_map.mp hkey
      rw [hthere p hp, hlive.view hp]
    · rcases hlive.view_notMem hkey with hview | ⟨e, hview, hexpired⟩
      · rw [hother key hkey, hview]
      · rw [hdead key e hview] at hexpired
        cases hexpired
  rw [generateRewrite, hentries, flatMap_map, ← hview]
  exact hexplains

/-! ## Every store -/

/-- **When a rewrite keeps the values.**  The entries of a snapshot, in any order, are turned into
frames at `n` and executed in any surroundings on an empty store; the values are compared at a
moment `t` that no deadline of the snapshot has passed.  The replay raises no error and gives the
same values exactly if no score is infinite and every string with a deadline is renewed. -/
theorem rewrite_keeps_values_iff (x : Executor) (hfloat : x.rt.RoundTrips) (s : Store)
    (hids : ∀ key value, s.lookup key = some value → value.payload.logical.NonnegIDs)
    (hd : ∀ key value, s.lookup key = some value → InInt64 value.expiresAt) (env : Env)
    (entries : List SnapshotEntry) (hentries : entries.Perm (s.snapshotAll env)) (n : Instant)
    (envs : Bytes → Nat → Env) (hash : Bytes → Fin 256) (clients : Nat → ClientState) (t : Int)
    (hafter : env.now 0 ≤ t)
    (hbefore : ∀ entry ∈ entries, 0 < entry.expiresAt → t ≤ entry.expiresAt) :
    (∃ w', x.replay (rewriteLog x.rt n.millis envs entries) ⟨Store.newStore hash, clients⟩ =
        some w' ∧
      w'.store.view.valuesAt t = s.view.valuesAt t) ↔
    ∀ entry ∈ entries, entry.FiniteScores ∧
      entry.Renewed n.millis ((envs entry.key 0).clock 1) t := by
  obtain ⟨live, hlive, rfl⟩ := exists_listsLive hentries
  simp only [forall_mem_map] at hbefore ⊢
  have hempty : ∀ p ∈ live, (Store.newStore hash).view p.1 = none := fun _ _ => rfl
  have hids' : ∀ p ∈ live, p.2.payload.logical.NonnegIDs := fun p hp =>
    hids p.1 p.2 (hlive.lookup hp)
  have hd' : ∀ p ∈ live, InInt64 p.2.expiresAt := fun p hp => hd p.1 p.2 (hlive.lookup hp)
  by_cases hfinite : ∀ p ∈ live, p.2.payload.logical.FiniteScores
  · obtain ⟨w', hreplay, hrestored, hother⟩ := @replay_entries x hfloat (env.order 1) n envs live
      hlive.nodup hfinite hids' hd' ⟨Store.newStore hash, clients⟩ rfl hempty
    have hiff : ∀ p ∈ live, w'.store.view.valuesAt t p.1 = s.view.valuesAt t p.1 ↔
        (snapshotEntry (env.order 1) p.1 p.2).Renewed n.millis ((envs p.1 0).clock 1) t := by
      intro p hp
      rw [hlive.valuesAt_mem hp (hbefore p hp)]
      exact restored_iff (hrestored p hp)
    constructor
    · rintro ⟨w'', hreplay', hvalues⟩ p hp
      obtain rfl : w' = w'' := Option.some.inj (hreplay.symm.trans hreplay')
      exact ⟨finiteScores_snapshotEntry.mpr (hfinite p hp), (hiff p hp).mp (congrFun hvalues p.1)⟩
    · intro hrenewed
      refine ⟨w', hreplay, funext fun key => ?_⟩
      by_cases hkey : key ∈ live.map Prod.fst
      · obtain ⟨p, hp, rfl⟩ := mem_map.mp hkey
        exact (hiff p hp).mpr (hrenewed p hp).2
      · have hnone : w'.store.view key = none := hother key hkey
        rw [Keyspace.valuesAt_of_none hnone, hlive.valuesAt_notMem hkey hafter]
  · have hfails := @replay_entries_infinite x hfloat (env.order 1) n envs live hlive.nodup hfinite
      hids' hd' ⟨Store.newStore hash, clients⟩ rfl hempty
    refine iff_of_false ?_ ?_
    · rintro ⟨w', hreplay, -⟩
      rw [hfails] at hreplay
      cases hreplay
    · intro h
      exact hfinite fun p hp => finiteScores_snapshotEntry.mp (h p hp).1

theorem ofBits_roundTrips : Runtime.ofBits.RoundTrips := by
  intro score
  simp only [Runtime.ofBits, readNat_formatNat, Option.bind_some]
  rw [if_pos score.bits.toNat_lt, UInt64.ofNat_toNat]

/-- A new store after one SET in the first second. -/
def Store.single (key data : Bytes) (d : Int) : Store :=
  ((newStore fun _ => 0).mutate key (.set data d) (.frozen firstSecond)).1

/-- A string that expires after five seconds, and a list. -/
def Store.mixed : Store :=
  ((single (ascii "k") (ascii "v") 5000).mutate (ascii "l") (.push false [ascii "a", ascii "b"])
    (.frozen firstSecond)).1

set_option maxRecDepth 8000 in
/-- They are rewritten and replayed in the first second. -/
theorem rewrite_keeps_values_single :
    ∃ w', quiet.replay
        (rewriteLog quiet.rt firstSecond.millis (fun _ _ => .frozen firstSecond)
          (Store.mixed.snapshotAll (.frozen firstSecond)))
        ⟨Store.newStore fun _ => 0, fun _ => .fresh⟩ = some w' ∧
      w'.store.view.valuesAt 1000 = Store.mixed.view.valuesAt 1000 := by
  have hstored : ∀ key value, Store.mixed.lookup key = some value →
      value.payload.logical.NonnegIDs ∧ InInt64 value.expiresAt := by
    intro key value h
    have hmem : (key, value) ∈ [_, _] := (@Store.mem_allEntries _ (MapOrder.id Bytes) _ _).mpr h
    rcases mem_pair.mp hmem with heq | heq <;>
    · cases heq
      exact ⟨trivial, by decide⟩
  refine (rewrite_keeps_values_iff quiet ofBits_roundTrips _ (fun _ _ h => (hstored _ _ h).1)
    (fun _ _ h => (hstored _ _ h).2) (.frozen firstSecond) _ (List.Perm.refl _) firstSecond _ _ _
    1000 (by decide) fun entry hentry => ?_).mpr fun entry hentry => ?_
  · rcases mem_pair.mp hentry with rfl | rfl <;> decide
  · rcases mem_pair.mp hentry with rfl | rfl
    · exact ⟨trivial, trivial⟩
    · exact ⟨trivial, fun _ => by decide⟩

set_option maxRecDepth 8000 in
/-- The time to live of 18446744073709 milliseconds is a negative number of nanoseconds: the string
is live in the store, and gone from the copy at the moment it is made. -/
theorem rewrite_loses_value :
    (Store.single (ascii "k") (ascii "v") 18446744074709).view.valuesAt 1000 (ascii "k") =
        some (.string (ascii "v")) ∧
      ∃ w', quiet.replay
          (rewriteLog quiet.rt firstSecond.millis (fun _ _ => .frozen firstSecond)
            ((Store.single (ascii "k") (ascii "v") 18446744074709).snapshotAll
              (.frozen firstSecond)))
          ⟨Store.newStore fun _ => 0, fun _ => .fresh⟩ = some w' ∧
        w'.store.view.valuesAt 1000 (ascii "k") = none :=
  ⟨rfl, _, rfl, rfl⟩

end Stash
