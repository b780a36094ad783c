import Stash.Machine
import Stash.RewriteReplay

/-!
# The append-only file of a server

In the default networking mode every connection is served by a goroutine of its own.  A request is
two atomic steps: it is executed under the locks of the store, and its durability frames are
appended later, under the lock of the writer.  A rewrite is two more: the snapshot, whose barrier
starts the rewrite buffer, and the swap of the file.

The frames of the file and of the requests still to be appended account for the keyspace
(`Accounts`).  An execution adds its frames at the end of what is pending.  An append may pick any
client; it keeps the account as long as it overtakes no earlier request for one of its keys, since
the records of different keys commute.  A rewrite starts a second account, which is exact if nothing
was pending at the barrier.
-/

namespace Stash

open DecimalText GoMap Handlers List Executor

/-! ## What a log makes can be rewritten -/

/-- A value that a rewrite reproduces. -/
def Logical.Rewritable (value : Logical) : Prop :=
  value.FiniteScores ∧ value.NonnegIDs

variable {e : Entry} {current : Option Entry} {old : List ZSetEntry} {ks : Keyspace}
    {frames log : List Value} {rt : Runtime}

theorem changeEntry_value {P : Logical → Prop}
    {fresh : Except StorageError Logical} {change : Logical → Except StorageError Logical}
    (h : changeEntry current fresh change = .ok (some e))
    (hfresh : ∀ value, fresh = .ok value → P value)
    (hchange : ∀ c value, current = some c → change c.value = .ok value → P value) : P e.value := by
  rcases changeEntry_ok h with ⟨-, value, hvalue, rfl⟩ | ⟨c, value, hc, hvalue, rfl⟩
  · exact hfresh value hvalue
  · exact hchange c value hc hvalue

theorem shrinkEntry_value {P : Logical → Prop} {change : Logical → Except StorageError Logical}
    (h : shrinkEntry current change = .ok (some e))
    (hchange : ∀ c value, current = some c → change c.value = .ok value → P value) : P e.value := by
  obtain ⟨c, value, hc, hvalue, rfl⟩ := shrinkEntry_ok h
  exact hchange c value hc hvalue

/-- Strings and lists have neither scores nor IDs. -/
theorem rewritable_onString {f : Bytes → Except StorageError Bytes} {old value : Logical}
    (h : onString f old = .ok value) : value.Rewritable := by
  cases old with
  | string data =>
    obtain ⟨_, -, rfl⟩ := map_ok h
    exact ⟨trivial, trivial⟩
  | list | zset | stream | hash | set => cases h

theorem rewritable_onList {f : List Bytes → List Bytes} {old value : Logical}
    (h : onList f old = .ok value) : value.Rewritable := by
  cases old with
  | list items =>
    cases h
    exact ⟨trivial, trivial⟩
  | string | zset | stream | hash | set => cases h

/-- Steps that add at most their entry add at most the entries. -/
theorem mem_foldl_entries {f : List ZSetEntry → ZSetEntry → List ZSetEntry}
    (hf : ∀ old entry e, e ∈ f old entry → e ∈ old ∨ e = entry) {entries : List ZSetEntry}
    {e : ZSetEntry} (h : e ∈ entries.foldl f old) : e ∈ old ∨ e ∈ entries := by
  induction entries generalizing old with
  | nil => exact .inl h
  | cons entry entries ih =>
    rcases ih h with hold | hrest
    · rcases hf old entry e hold with hold | rfl
      · exact .inl hold
      · exact .inr mem_cons_self
    · exact .inr (mem_cons_of_mem _ hrest)

theorem mem_zsetPut {entry e : ZSetEntry} (h : e ∈ zsetPut old entry) : e ∈ old ∨ e = entry := by
  rcases RankedList.mem_put.mp h with rfl | hmem
  · exact .inr rfl
  · exact .inl hmem.1

theorem mem_zsetAddEntry {entry e : ZSetEntry}
    (h : e ∈ zsetAddEntry old entry) : e ∈ old ∨ e = entry := by
  unfold zsetAddEntry at h
  split at h
  · split at h
    · exact .inl h
    · exact mem_zsetPut h
  · exact mem_zsetPut h

/-- An explicit ID is non-negative, so the stream it is added to stays so. -/
theorem rewritable_streamAdd {old entries : List StreamRecord} {rawID : Bytes} {values : List Bytes}
    {now : Int} (hexplicit : rawID ≠ ascii "*") (hold : ∀ record ∈ old, record.id.Nonneg)
    (h : streamAdd old rawID values now = .ok entries) : ∀ record ∈ entries, record.id.Nonneg := by
  obtain ⟨id, hid, rfl⟩ := map_ok h
  have hnonneg := (parseStreamAddID_ok (admitID_parsed hexplicit hid).1).1
  intro record hrecord
  rw [mem_append, mem_singleton] at hrecord
  rcases hrecord with hrecord | rfl
  · exact hold record hrecord
  · exact hnonneg

/-- **A plain mutation keeps a value rewritable.** -/
theorem Mutation.apply_rewritable {m : Mutation} (htimeless : m.Timeless) (hfinite : m.FiniteScores)
    {now : Int} (hcurrent : ∀ c, current = some c → c.value.Rewritable)
    (h : m.apply now current = .ok (some e)) : e.value.Rewritable := by
  -- only the scores of a sorted set and the entries of a stream can keep a value from being
  -- rewritten; a value of another kind passes at once
  cases m with
  | set value expiresAt =>
    cases h
    exact ⟨trivial, trivial⟩
  | delete => cases h
  | increment =>
    refine changeEntry_value h (fun value hvalue => ?_) fun c value _ => rewritable_onString
    cases hvalue
    exact ⟨trivial, trivial⟩
  | setBit offset bit =>
    obtain ⟨-, -, h⟩ := bind_ok h
    refine changeEntry_value h (fun value hvalue => ?_) fun c value _ => rewritable_onString
    cases hvalue
    exact ⟨trivial, trivial⟩
  | pfAdd elements =>
    refine changeEntry_value h (fun value hvalue => ?_) fun c value _ => rewritable_onString
    cases hvalue
    exact ⟨trivial, trivial⟩
  | push left values =>
    simp only [apply] at h
    split at h
    · cases h
    · refine changeEntry_value h (fun value hvalue => ?_) fun c value _ => rewritable_onList
      cases hvalue
      exact ⟨trivial, trivial⟩
  | pop left => exact shrinkEntry_value h fun c value _ => rewritable_onList
  | popN left count =>
    simp only [apply] at h
    split at h
    · cases h
    · exact shrinkEntry_value h fun c value _ => rewritable_onList
  | zAdd entries =>
    simp only [apply] at h
    split at h
    · cases h
    · refine changeEntry_value h (fun value hvalue => ?_) fun c value hc hvalue => ?_
      · cases hvalue
        refine ⟨fun entry hentry => hfinite entry ?_, trivial⟩
        exact (mem_foldl_entries (fun _ _ _ => mem_zsetPut) hentry).resolve_left not_mem_nil
      · have hold := hcurrent c hc
        cases hkind : c.value with
        | zset old =>
          rw [hkind] at hvalue hold
          cases hvalue
          refine ⟨fun entry hentry => ?_, trivial⟩
          rcases mem_foldl_entries (fun _ _ _ => mem_zsetAddEntry) hentry with hmem | hmem
          · exact hold.1 entry hmem
          · exact hfinite entry hmem
        | string | list | stream | hash | set =>
          rw [hkind] at hvalue
          cases hvalue
  | xAdd rawID values =>
    simp only [apply] at h
    split at h
    · refine changeEntry_value h (fun value hvalue => ?_) fun c value hc hvalue => ?_
      · obtain ⟨entries, hadd, rfl⟩ := map_ok hvalue
        exact ⟨trivial, rewritable_streamAdd htimeless (fun _ h => absurd h not_mem_nil) hadd⟩
      · have hold := hcurrent c hc
        cases hkind : c.value with
        | stream old =>
          rw [hkind] at hvalue hold
          obtain ⟨entries, hadd, rfl⟩ := map_ok hvalue
          exact ⟨trivial, rewritable_streamAdd htimeless hold.2 hadd⟩
        | string | list | zset | hash | set =>
          rw [hkind] at hvalue
          cases hvalue
    · cases h
  | hSet | sAdd =>
    simp only [apply] at h
    split at h
    · cases h
    · refine changeEntry_value h (fun value hvalue => ?_) fun c value _ hvalue => ?_
      · cases hvalue
        exact ⟨trivial, trivial⟩
      · split at hvalue
        · cases hvalue
          exact ⟨trivial, trivial⟩
        · cases hvalue
  | hDel | sRem =>
    simp only [apply] at h
    split at h
    · cases h
    · refine shrinkEntry_value h fun c value _ hvalue => ?_
      split at hvalue
      · cases hvalue
        exact ⟨trivial, trivial⟩
      · cases hvalue

/-- Every value can be rewritten. -/
def Keyspace.Rewritable (ks : Keyspace) : Prop :=
  ∀ key e, ks key = some e → e.value.Rewritable

theorem LogRecord.act_rewritable {record : LogRecord} (hplain : record.Plain) {ks' : Keyspace}
    (hks : ks.Rewritable) (h : record.act ks = some ks') : ks'.Rewritable := by
  intro k e he
  cases record with
  | write key m =>
    obtain ⟨entry, happly, rfl⟩ := act_write h
    by_cases hk : k = key
    · subst hk
      rw [Function.update_self] at he
      rw [he] at happly
      exact m.apply_rewritable hplain.1 hplain.2.2 (fun c hc => hks k c hc) happly
    · rw [Function.update_of_ne hk] at he
      exact hks k e he
  | delete keys =>
    cases h
    simp only at he
    split at he
    · cases he
    · exact hks k e he

theorem Explains.rewritable {a b : Keyspace}
    (h : Explains rt frames a b) (ha : a.Rewritable) : b.Rewritable := by
  obtain ⟨records, hdenotes, hrun⟩ := h
  induction hdenotes generalizing a with
  | nil =>
    cases hrun
    exact ha
  | @cons frame record frames records hfirst _ ih =>
    obtain ⟨middle, hmiddle, hrest⟩ := Option.bind_eq_some_iff.mp hrun
    exact ih (record.act_rewritable hfirst.plain ha hmiddle) hrest

/-! ## The server -/

/-- A rewrite under way: its snapshot and the rewrite buffer. -/
structure Rewrite where
  entries : List SnapshotEntry
  buffer : List Value

/-- The server, as far as its append-only file is concerned. -/
structure Server where
  world : World
  /-- the clients whose request is executed but not appended yet, in the order of the executions -/
  pending : List (Nat × List Value)
  /-- the frames of the append-only file -/
  file : List Value
  rewrite : Option Rewrite

/-- A server that was just started, without an append-only file. -/
def Server.started (hash : Bytes → Fin 256) : Server :=
  ⟨⟨.newStore hash, fun _ => .fresh⟩, [], [], none⟩

/-- The atomic steps. -/
inductive ServerStep where
  /-- `ExecuteDetailed` -/
  | execute (client : Nat) (envs : Nat → Env) (value : Value)
  /-- `Writer.append` with the client's durability frames -/
  | append (client : Nat)
  /-- `SnapshotAllWithWriteBarrier` -/
  | barrier (env : Env)
  /-- `finalizeRewrite`, the frames generated at a reading of the clock -/
  | finalizeRewrite (now : Instant)
  /-- `clearRewriteState`: the rewrite failed -/
  | clearRewrite

namespace Server

/-- The frames of a client that are to be appended. -/
def framesOf (s : Server) (client : Nat) : List Value :=
  ((s.pending.find? fun p => p.1 = client).map Prod.snd).getD []

/-- The requests that were executed before that of a client and are not appended yet. -/
def earlier (s : Server) (client : Nat) : List (Nat × List Value) :=
  s.pending.takeWhile fun p => p.1 ≠ client

/-- One step; none if the step cannot be taken. -/
def step (x : Executor) (s : Server) : ServerStep → Option Server
  | .execute client envs value =>
    if s.pending.any fun p => p.1 = client then none
    else
      let (world, outcome) := x.executeDetailed (.ofClient client) envs value s.world
      some { s with world, pending := s.pending ++ [(client, durabilityOf outcome)] }
  | .append client =>
    if s.pending.any fun p => p.1 = client then
      some
        { s with
          pending := s.pending.eraseP fun p => p.1 = client
          file := s.file ++ s.framesOf client
          rewrite := s.rewrite.map fun r => { r with buffer := r.buffer ++ s.framesOf client } }
    else none
  | .barrier env =>
    if s.rewrite.isSome then none
    else some { s with rewrite := some ⟨s.world.store.snapshotAll env, []⟩ }
  | .finalizeRewrite now =>
    s.rewrite.map fun r =>
      { s with file := generateRewrite x.rt r.entries now.millis ++ r.buffer, rewrite := none }
  | .clearRewrite => some { s with rewrite := none }

/-- The step keeps the log in order: only replayable requests are executed, an append overtakes no
earlier request for one of its keys, and nothing is pending at a barrier. -/
def Orderly (x : Executor) (s : Server) : ServerStep → Prop
  | .execute _ _ value =>
    ∀ request, decodeRequest x.rt value = .ok request → Replayable x.rt request
  | .append client =>
    ∀ p ∈ s.earlier client, ∀ early ∈ p.2, ∀ frame ∈ s.framesOf client,
      ∀ key ∈ frameKeys x.rt early, key ∉ frameKeys x.rt frame
  | .barrier _ => s.pending = []
  | .finalizeRewrite _ => True
  | .clearRewrite => True

end Server

/-! ## Accounts -/

/-- The frames of a log and of the requests still to be appended lead from nothing to the keyspace,
in the order of the executions. -/
def Accounts (rt : Runtime) (log : List Value) (pending : List (Nat × List Value))
    (ks : Keyspace) : Prop :=
  ∃ records batches, List.Forall₂ (Denotes rt) log records ∧
    List.Forall₂ (fun p batch => List.Forall₂ (Denotes rt) p.2 batch) pending batches ∧
    CommutingLog.run LogRecord.act (records ++ batches.flatten) (fun _ => none) = some ks

theorem split_batches {α β : Type} {R : α → β → Prop} {pending : List (Nat × List α)}
    {records : List β} (h : List.Forall₂ R (pending.flatMap Prod.snd) records) :
    ∃ batches, records = batches.flatten ∧
      List.Forall₂ (fun p batch => List.Forall₂ R p.2 batch) pending batches := by
  induction pending generalizing records with
  | nil =>
    cases h
    exact ⟨[], rfl, .nil⟩
  | cons p pending ih =>
    rw [flatMap_cons] at h
    obtain ⟨batch, rest, rfl, hbatch, hrest⟩ := split_frames h
    obtain ⟨batches, rfl, hbatches⟩ := ih hrest
    exact ⟨batch :: batches, flatten_cons.symm, .cons hbatch hbatches⟩

/-- An account is an explanation by the log and what is pending. -/
theorem accounts_iff {pending : List (Nat × List Value)} :
    Accounts rt log pending ks ↔
      Explains rt (log ++ pending.flatMap Prod.snd) (fun _ => none) ks := by
  constructor
  · rintro ⟨records, batches, hdenotes, hbatches, hrun⟩
    refine ⟨records ++ batches.flatten, rel_append hdenotes ?_, hrun⟩
    rw [flatMap_def]
    exact rel_flatten (forall₂_map_left_iff.mpr hbatches)
  · rintro ⟨records, hdenotes, hrun⟩
    obtain ⟨logged, rest, rfl, hlogged, hrest⟩ := split_frames hdenotes
    obtain ⟨batches, rfl, hbatches⟩ := split_batches hrest
    exact ⟨logged, batches, hlogged, hbatches, hrun⟩

theorem Explains.accounts (h : Explains rt log (fun _ => none) ks) : Accounts rt log [] ks := by
  rw [accounts_iff, flatMap_nil, append_nil]
  exact h

theorem Accounts.explains (h : Accounts rt log [] ks) : Explains rt log (fun _ => none) ks := by
  rwa [accounts_iff, flatMap_nil, append_nil] at h

/-- An execution adds its frames behind everything that is pending. -/
theorem Accounts.execute {pending : List (Nat × List Value)} {ks' : Keyspace}
    (h : Accounts rt log pending ks) (hframes : Explains rt frames ks ks') (client : Nat) :
    Accounts rt log (pending ++ [(client, frames)]) ks' := by
  rw [accounts_iff, flatMap_append, flatMap_singleton, ← append_assoc]
  exact (accounts_iff.mp h).append hframes

/-- **An append that overtakes no request for its keys keeps the account.** -/
theorem Accounts.append {before after : List (Nat × List Value)}
    {client : Nat} (h : Accounts rt log (before ++ (client, frames) :: after) ks)
    (hdisjoint : ∀ p ∈ before, ∀ early ∈ p.2, ∀ frame ∈ frames,
      ∀ key ∈ frameKeys rt early, key ∉ frameKeys rt frame) :
    Accounts rt (log ++ frames) (before ++ after) ks := by
  rw [accounts_iff, flatMap_append, flatMap_cons] at h
  rw [accounts_iff, flatMap_append, append_assoc]
  refine h.promote fun early hearly => ?_
  obtain ⟨p, hp, hearly⟩ := mem_flatMap.mp hearly
  exact hdisjoint p hp early hearly

/-! ## Runs -/

namespace Server

/-- The first request of a client splits what is pending. -/
theorem split_pending {pending : List (Nat × List Value)} {client : Nat}
    (h : (pending.any fun p => p.1 = client) = true) :
    ∃ after, pending = (pending.takeWhile fun p => p.1 ≠ client) ++
        (client, ((pending.find? fun p => p.1 = client).map Prod.snd).getD []) :: after ∧
      (pending.eraseP fun p => p.1 = client) =
        (pending.takeWhile fun p => p.1 ≠ client) ++ after := by
  induction pending with
  | nil => cases h
  | cons p pending ih =>
    by_cases hp : p.1 = client
    · subst hp
      exact ⟨pending, by simp, by simp⟩
    · have hrest : (pending.any fun p => p.1 = client) = true := by
        simpa [hp] using h
      obtain ⟨after, hsplit, herase⟩ := ih hrest
      refine ⟨after, ?_, ?_⟩
      · simp only [takeWhile_cons, List.find?_cons, hp, decide_false, ne_eq, not_false_eq_true,
          decide_true, if_true, cons_append]
        rw [← hsplit]
      · simp only [takeWhile_cons, eraseP_cons, hp, decide_false, ne_eq,
          not_false_eq_true, decide_true, if_true, cons_append, cond_false]
        rw [herase]

/-- **The file accounts for the keyspace, and so does a rewrite under way.** -/
structure Logged (x : Executor) (s : Server) : Prop where
  steady : x.Steady s.world
  file : Accounts x.rt s.file s.pending s.world.store.view
  rewrite : ∀ r, s.rewrite = some r → ∀ now,
    Accounts x.rt (generateRewrite x.rt r.entries now ++ r.buffer) s.pending s.world.store.view

variable {x : Executor}

theorem logged_started (hash : Bytes → Fin 256) : Logged x (started hash) where
  steady := x.steady_newStore hash
  file := (Explains.nil x.rt _).accounts
  rewrite := fun _ h => by cases h

variable {s s' : Server}

/-- One orderly step keeps the accounts. -/
theorem Logged.step (h : Logged x s) {a : ServerStep} (horderly : Orderly x s a)
    (hfloat : ∀ env, a = .barrier env → x.rt.RoundTrips) (hstep : step x s a = some s') :
    Logged x s' := by
  cases a with
  | execute client envs value =>
    simp only [Server.step] at hstep
    split at hstep
    · cases hstep
    · cases hstep
      obtain ⟨hexplains, hsteady⟩ :=
        x.execute_explains horderly h.steady (.ofClient client) envs
      exact ⟨hsteady, h.file.execute hexplains client,
        fun r hr now => (h.rewrite r hr now).execute hexplains client⟩
  | append client =>
    simp only [Server.step] at hstep
    split at hstep
    · rename_i hany
      cases hstep
      obtain ⟨after, hsplit, herase⟩ := split_pending hany
      -- the same exchange in the file and in the rewrite buffer
      have hkeep : ∀ log, Accounts x.rt log s.pending s.world.store.view →
          Accounts x.rt (log ++ s.framesOf client) (s.pending.eraseP fun p => p.1 = client)
            s.world.store.view := by
        intro log hlog
        rw [hsplit] at hlog
        rw [herase]
        exact hlog.append horderly
      refine ⟨h.steady, hkeep _ h.file, fun r hr now => ?_⟩
      obtain ⟨r', hr', rfl⟩ := Option.map_eq_some_iff.mp hr
      rw [← append_assoc]
      exact hkeep _ (h.rewrite r' hr' now)
    · cases hstep
  | barrier env =>
    simp only [Server.step] at hstep
    split at hstep
    · cases hstep
    · cases hstep
      refine ⟨h.steady, h.file, fun r hr now => ?_⟩
      cases hr
      have hpending : s.pending = [] := horderly
      have hfile := h.file
      rw [hpending] at hfile
      have hgood : s.world.store.view.Rewritable :=
        hfile.explains.rewritable fun _ _ he => by cases he
      rw [append_nil, hpending]
      exact (generateRewrite_explains (hfloat env rfl) h.steady.dead hgood env now).accounts
  | finalizeRewrite now =>
    obtain ⟨r, hr, rfl⟩ := Option.map_eq_some_iff.mp hstep
    exact ⟨h.steady, h.rewrite r hr now.millis, fun _ hnone => by cases hnone⟩
  | clearRewrite =>
    cases hstep
    exact ⟨h.steady, h.file, fun _ hnone => by cases hnone⟩

/-- **An orderly run keeps the accounts.** -/
theorem Logged.run {s s' : Server} (h : Logged x s) {steps : List ServerStep}
    (horderly : Machine.Heeds (Server.step x) (Orderly x) steps s)
    (hfloat : ∀ env, .barrier env ∈ steps → x.rt.RoundTrips)
    (hrun : Machine.run (Server.step x) steps s = some s') : Logged x s' := by
  induction steps generalizing s with
  | nil =>
    cases hrun
    exact h
  | cons a steps ih =>
    obtain ⟨middle, hstep, hrest⟩ := Option.bind_eq_some_iff.mp hrun
    obtain ⟨hfirst, horderly⟩ := horderly middle hstep
    have hmiddle := h.step hfirst
      (fun env ha => hfloat env (by rw [ha]; exact mem_cons_self)) hstep
    exact ih hmiddle horderly
      (fun env hmem => hfloat env (mem_cons_of_mem _ hmem)) hrest

/-- When every request is appended, the file reproduces the keyspace. -/
theorem Logged.replay (h : Logged x s) (hdone : s.pending = []) {y : Executor}
    (hrt : y.rt = x.rt) (hash : Bytes → Fin 256) (clients : Nat → ClientState)
    {logged : List (Env × Value)} (hlogged : logged.map Prod.snd = s.file) :
    ∃ w', y.replay logged ⟨.newStore hash, clients⟩ = some w' ∧
      w'.store.view = s.world.store.view := by
  have hfile := h.file
  rw [hdone, ← hrt] at hfile
  have hexplains : Explains y.rt s.file (World.mk (.newStore hash) clients).store.view
      s.world.store.view := hfile.explains
  exact hexplains.replay rfl (fun _ _ he => by cases he) hlogged

/-- The frames of the request that a step executes. -/
def produced (x : Executor) (s : Server) : ServerStep → List Value
  | .execute client envs value =>
    durabilityOf (x.executeDetailed (.ofClient client) envs value s.world).2
  | _ => []

/-- The frames of the requests of a run, in the order of the executions. -/
def executed (x : Executor) : List ServerStep → Server → List Value
  | [], _ => []
  | a :: steps, s => produced x s a ++ ((step x s a).map (executed x steps)).getD []

/-- A batch without frames for the keys of another one can be exchanged with it. -/
theorem filter_exchange {rt : Runtime} {before : List (Nat × List Value)} {frames : List Value}
    (hdisjoint : ∀ p ∈ before, ∀ early ∈ p.2, ∀ frame ∈ frames,
      ∀ key ∈ frameKeys rt early, key ∉ frameKeys rt frame) (key : Bytes) :
    (before.flatMap Prod.snd ++ frames).filter (fun frame => key ∈ frameKeys rt frame) =
      (frames ++ before.flatMap Prod.snd).filter fun frame => key ∈ frameKeys rt frame := by
  rw [filter_append, filter_append]
  by_cases hkey : ∃ frame ∈ frames, key ∈ frameKeys rt frame
  · obtain ⟨frame, hframe, hkey⟩ := hkey
    have hnone : (before.flatMap Prod.snd).filter (fun frame => key ∈ frameKeys rt frame) = [] := by
      rw [filter_eq_nil_iff]
      intro early hearly hmem
      obtain ⟨p, hp, hearly⟩ := mem_flatMap.mp hearly
      exact hdisjoint p hp early hearly frame hframe key (of_decide_eq_true hmem) hkey
    rw [hnone, append_nil, nil_append]
  · have hnone : frames.filter (fun frame => key ∈ frameKeys rt frame) = [] := by
      rw [filter_eq_nil_iff]
      exact fun frame hframe hmem => hkey ⟨frame, hframe, of_decide_eq_true hmem⟩
    rw [hnone, append_nil, nil_append]

/-- The file with what is pending, the frames of one key. -/
def keyLog (x : Executor) (s : Server) (key : Bytes) : List Value :=
  (s.file ++ s.pending.flatMap Prod.snd).filter fun frame => key ∈ frameKeys x.rt frame

/-- One step adds what it executes at the end. -/
theorem keyLog_step {a : ServerStep} (horderly : Orderly x s a)
    (hswap : ∀ now, a ≠ .finalizeRewrite now) (hstep : step x s a = some s') (key : Bytes) :
    keyLog x s' key =
      keyLog x s key ++ (produced x s a).filter fun frame => key ∈ frameKeys x.rt frame := by
  cases a with
  | execute client envs value =>
    simp only [step] at hstep
    split at hstep
    · cases hstep
    · cases hstep
      simp only [keyLog, produced, flatMap_append, flatMap_singleton, filter_append,
        append_assoc]
  | append client =>
    simp only [step] at hstep
    split at hstep
    · rename_i hany
      cases hstep
      obtain ⟨after, hsplit, herase⟩ := split_pending hany
      have hexchange := filter_exchange horderly key
      have hpending : s.pending.flatMap Prod.snd =
          (s.earlier client).flatMap Prod.snd ++ s.framesOf client ++ after.flatMap Prod.snd := by
        have hflat := congrArg (List.flatMap Prod.snd) hsplit
        rw [flatMap_append, flatMap_cons, ← append_assoc] at hflat
        exact hflat
      have herased : (s.pending.eraseP fun p => p.1 = client).flatMap Prod.snd =
          (s.earlier client).flatMap Prod.snd ++ after.flatMap Prod.snd := by
        rw [herase, flatMap_append]
        rfl
      calc ((s.file ++ s.framesOf client) ++
            (s.pending.eraseP fun p => p.1 = client).flatMap Prod.snd).filter _
          = s.file.filter _ ++ ((s.framesOf client ++ (s.earlier client).flatMap Prod.snd).filter _ ++
              (after.flatMap Prod.snd).filter _) := by
            rw [herased, ← filter_append, ← filter_append, append_assoc,
              append_assoc]
        _ = (s.file ++ s.pending.flatMap Prod.snd).filter _ := by
            rw [← hexchange, hpending, ← filter_append, ← filter_append]
        _ = keyLog x s key ++ [] := (append_nil _).symm
    · cases hstep
  | barrier env =>
    simp only [step] at hstep
    split at hstep
    · cases hstep
    · cases hstep
      exact (append_nil _).symm
  | finalizeRewrite now => exact absurd rfl (hswap now)
  | clearRewrite =>
    cases hstep
    exact (append_nil _).symm

/-- **The frames of one key stand in the order of their executions**, as long as no file is
swapped. -/
theorem keyLog_run {steps : List ServerStep} (horderly : Machine.Heeds (step x) (Orderly x) steps s)
    (hswap : ∀ now, .finalizeRewrite now ∉ steps)
    (hrun : Machine.run (step x) steps s = some s') (key : Bytes) :
    keyLog x s' key =
      keyLog x s key ++ (executed x steps s).filter fun frame => key ∈ frameKeys x.rt frame := by
  induction steps generalizing s with
  | nil =>
    cases hrun
    exact (append_nil _).symm
  | cons a steps ih =>
    obtain ⟨middle, hstep, hrest⟩ := Option.bind_eq_some_iff.mp hrun
    obtain ⟨hfirst, horderly⟩ := horderly middle hstep
    have hfirst := keyLog_step hfirst (fun now h => hswap now (h ▸ mem_cons_self)) hstep key
    rw [ih horderly (fun now h => hswap now (mem_cons_of_mem _ h)) hrest,
      hfirst, executed, hstep, filter_append, append_assoc]
    rfl

/-- **The file agrees with the store.**  Any number of clients execute and append in any order; no
rewrite is started.  If every step is orderly, then once all requests are appended, executing the
frames of the file on an empty store raises no error and gives the keyspace of the server, and the
frames of one key stand in the file in the order of their executions. -/
theorem log_agrees_with_store (x y : Executor) (hrt : y.rt = x.rt) (hash hash' : Bytes → Fin 256)
    (clients : Nat → ClientState) (steps : List ServerStep) (hplain : ∀ env, .barrier env ∉ steps)
    (hswap : ∀ now, .finalizeRewrite now ∉ steps)
    (horderly : Machine.Heeds (step x) (Orderly x) steps (started hash)) (s : Server)
    (hrun : Machine.run (step x) steps (started hash) = some s) (hdone : s.pending = []) :
    (∀ logged : List (Env × Value), logged.map Prod.snd = s.file →
      ∃ w', y.replay logged ⟨.newStore hash', clients⟩ = some w' ∧
        w'.store.view = s.world.store.view) ∧
    ∀ key, s.file.filter (fun frame => key ∈ frameKeys x.rt frame) =
      (executed x steps (started hash)).filter fun frame => key ∈ frameKeys x.rt frame := by
  have hlog := (logged_started hash).run horderly (fun env hmem => absurd hmem (hplain env)) hrun
  refine ⟨fun logged hlogged => hlog.replay hdone hrt hash' clients hlogged, fun key => ?_⟩
  have hkey := keyLog_run horderly hswap hrun key
  rw [keyLog, hdone, flatMap_nil, append_nil] at hkey
  exact hkey

/-- Frames that are all executed in the same surroundings. -/
theorem map_snd_at (env : Env) (frames : List Value) :
    (frames.map fun frame => (env, frame)).map Prod.snd = frames := by
  rw [map_map]
  exact map_id _

/-- A client's request, executed in the first second. -/
def request (client : Nat) (args : List Bytes) : ServerStep :=
  .execute client (fun _ => .frozen firstSecond) (commandFrame args)

/-- Two clients set one key, and append in the order of their executions. -/
theorem log_agrees_with_store_set :
    ∃ s, Machine.run (step quiet) [request 0 [ascii "SET", ascii "k", ascii "1"],
          request 1 [ascii "SET", ascii "k", ascii "2"], .append 0, .append 1]
        (started fun _ => 0) = some s ∧
      ∃ w', quiet.replay (s.file.map fun frame => (.frozen firstSecond, frame))
          .initial = some w' ∧
        w'.store.view (ascii "k") = some ⟨.string (ascii "2"), 0⟩ := by
  have horderly : Machine.Heeds (step quiet) (Orderly quiet)
      [request 0 [ascii "SET", ascii "k", ascii "1"],
        request 1 [ascii "SET", ascii "k", ascii "2"], .append 0, .append 1]
      (started fun _ => 0) := by
    rintro _ ⟨⟩
    refine ⟨fun r hr => ?_, ?_⟩
    · cases hr
      exact ⟨⟨by decide, by decide⟩, by decide, by decide⟩
    rintro _ ⟨⟩
    refine ⟨fun r hr => ?_, ?_⟩
    · cases hr
      exact ⟨⟨by decide, by decide⟩, by decide, by decide⟩
    rintro _ ⟨⟩
    refine ⟨fun p hp => absurd hp not_mem_nil, ?_⟩
    rintro _ ⟨⟩
    exact ⟨fun p hp => absurd hp not_mem_nil, trivial⟩
  obtain ⟨hreplays, -⟩ := log_agrees_with_store .quiet .quiet rfl (fun _ => 0) (fun _ => 0)
    (fun _ => .fresh) _ (fun env h => by simp [request] at h) (fun now h => by simp [request] at h)
    horderly _ rfl rfl
  obtain ⟨w', hreplay, hview⟩ := hreplays _ (map_snd_at (.frozen firstSecond) _)
  exact ⟨_, rfl, w', hreplay, (congrFun hview (ascii "k")).trans rfl⟩

/-- Two clients set a key, and append in the other order: the server holds `2`, the log `1`. -/
theorem log_disagrees_with_store :
    ∃ s, Machine.run (step quiet) [request 0 [ascii "SET", ascii "k", ascii "1"],
          request 1 [ascii "SET", ascii "k", ascii "2"], .append 1, .append 0]
        (started fun _ => 0) = some s ∧ s.pending = [] ∧
      s.world.store.view (ascii "k") = some ⟨.string (ascii "2"), 0⟩ ∧
      ∃ w', quiet.replay (s.file.map fun frame => (.frozen firstSecond, frame))
          .initial = some w' ∧
        w'.store.view (ascii "k") = some ⟨.string (ascii "1"), 0⟩ :=
  ⟨_, rfl, rfl, rfl, _, rfl, rfl⟩

/-- **A rewrite loses and doubles nothing.**  The same for runs with any number of rewrites, each of
them finalized or given up, if nothing is pending at their barriers. -/
theorem rewrite_agrees_with_store (x y : Executor) (hrt : y.rt = x.rt)
    (hfloat : x.rt.RoundTrips) (hash hash' : Bytes → Fin 256) (clients : Nat → ClientState)
    (steps : List ServerStep)
    (horderly : Machine.Heeds (step x) (Orderly x) steps (started hash)) (s : Server)
    (hrun : Machine.run (step x) steps (started hash) = some s) (hdone : s.pending = [])
    (logged : List (Env × Value)) (hlogged : logged.map Prod.snd = s.file) :
    ∃ w', y.replay logged ⟨.newStore hash', clients⟩ = some w' ∧
      w'.store.view = s.world.store.view := by
  have hlog := (logged_started hash).run horderly (fun _ _ => hfloat) hrun
  exact hlog.replay hdone hrt hash' clients hlogged

/-- INCR, and a rewrite after its frame is appended. -/
theorem rewrite_agrees_with_store_incr :
    ∃ s, Machine.run (step quiet) [request 0 [ascii "INCR", ascii "k"], .append 0,
          .barrier (.frozen firstSecond), .finalizeRewrite firstSecond]
        (started fun _ => 0) = some s ∧
      ∃ w', quiet.replay (s.file.map fun frame => (.frozen firstSecond, frame))
          .initial = some w' ∧
        w'.store.view (ascii "k") = some ⟨.string (ascii "1"), 0⟩ := by
  have horderly : Machine.Heeds (step quiet) (Orderly quiet)
      [request 0 [ascii "INCR", ascii "k"], .append 0, .barrier (.frozen firstSecond),
        .finalizeRewrite firstSecond] (started fun _ => 0) := by
    rintro _ ⟨⟩
    refine ⟨fun r hr => ?_, ?_⟩
    · cases hr
      exact ⟨⟨by decide, by decide⟩, by decide, by decide⟩
    rintro _ ⟨⟩
    refine ⟨fun p hp => absurd hp not_mem_nil, ?_⟩
    rintro _ ⟨⟩
    exact ⟨rfl, fun _ _ => ⟨trivial, trivial⟩⟩
  obtain ⟨w', hreplay, hview⟩ := rewrite_agrees_with_store .quiet .quiet rfl ofBits_roundTrips
    (fun _ => 0) (fun _ => 0) (fun _ => .fresh) _ horderly _ rfl rfl
    _ (map_snd_at (.frozen firstSecond) _)
  exact ⟨_, rfl, w', hreplay, (congrFun hview (ascii "k")).trans rfl⟩

set_option maxRecDepth 8000 in
/-- INCR is executed before the barrier and appended after it: the server holds `1`, the rewritten
file makes `2`. -/
theorem rewrite_doubles_incr :
    ∃ s, Machine.run (step quiet) [request 0 [ascii "INCR", ascii "k"],
          .barrier (.frozen firstSecond), .append 0, .finalizeRewrite firstSecond]
        (started fun _ => 0) = some s ∧ s.pending = [] ∧
      s.world.store.view (ascii "k") = some ⟨.string (ascii "1"), 0⟩ ∧
      ∃ w', quiet.replay (s.file.map fun frame => (.frozen firstSecond, frame))
          .initial = some w' ∧
        w'.store.view (ascii "k") = some ⟨.string (ascii "2"), 0⟩ :=
  ⟨_, rfl, rfl, rfl, _, rfl, rfl⟩

end Server

end Stash
