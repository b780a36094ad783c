import Stash.Machine
import Stash.RdbLoader
import Stash.ServerLog
import Stash.StoreAgreement

/-!
# Full resynchronisation

A replica that sends PSYNC is served in three steps: the snapshot of the strings, the reply, and the
registration as a peer.  Meanwhile the other connections go on: a request is executed, and its frames
are propagated later, to the peers registered at that moment.

Requests are numbered in the order of their executions, and the snapshot contains those numbered
below the count at its moment.  A request is reflected exactly once if it is contained in the
snapshot or sent to the replica, and not both.  That hangs on the moment of the registration alone
(`HandsOver`): no request executed after the snapshot may have been propagated before it, and no
request executed before the snapshot may still have to be.  If it does, the frames behind the
snapshot explain the keyspace, and the replica comes to hold it.
-/

namespace Stash

open DecimalText GoMap List Machine

/-! ## The replica -/

/-- `unicode.IsSpace` within ASCII; `strings.Fields` also splits at the other spaces of Unicode. -/
def isSpace (b : UInt8) : Bool :=
  b = 32 || (9 ≤ b && b ≤ 13)

/-- The loop of `strings.Fields`, with the field under way. -/
def fieldsFrom (field : Bytes) : Bytes → List Bytes
  | [] => if field = [] then [] else [field]
  | b :: rest =>
    if isSpace b then (if field = [] then [] else [field]) ++ fieldsFrom [] rest
    else fieldsFrom (field ++ [b]) rest

/-- `strings.Fields`. -/
def fields (line : Bytes) : List Bytes :=
  fieldsFrom [] line

/-- Without blanks. -/
def isWord (word : Bytes) : Bool :=
  word.all fun b => !isSpace b

theorem fieldsFrom_append {word : Bytes} (hword : isWord word = true) (field rest : Bytes) :
    fieldsFrom field (word ++ rest) = fieldsFrom (field ++ word) rest := by
  induction word generalizing field with
  | nil => rw [nil_append, append_nil]
  | cons b word ih =>
    rw [isWord, all_cons, Bool.and_eq_true, Bool.not_eq_true'] at hword
    rw [cons_append, fieldsFrom, hword.1, if_neg Bool.false_ne_true, ih hword.2,
      append_assoc]
    rfl

theorem fields_append {word : Bytes} (hne : word ≠ []) (hword : isWord word = true) (rest : Bytes) :
    fields (word ++ 32 :: rest) = word :: fields rest := by
  rw [fields, fieldsFrom_append hword, nil_append, fieldsFrom, if_pos (by decide), if_neg hne]
  rfl

/-- `randomReplicationID`, from the random bytes. -/
def randomReplicationID (raw : Bytes) : Bytes :=
  hexText raw

theorem isWord_randomReplicationID (raw : Bytes) : isWord (randomReplicationID raw) = true := by
  have hdigit : ∀ n : Fin 16, (!isSpace (hexDigit n)) = true := by decide
  rw [isWord, all_eq_true]
  intro c hc
  obtain ⟨b, -, hc⟩ := mem_flatMap.mp hc
  have hb := b.toNat_lt
  rcases mem_pair.mp hc with rfl | rfl
  · exact hdigit ⟨b.toNat / 16, by omega⟩
  · exact hdigit ⟨b.toNat % 16, by omega⟩

theorem fields_fullResync {raw : Bytes} (hraw : raw ≠ []) :
    fields (ascii "FULLRESYNC " ++ randomReplicationID raw ++ ascii " 0") =
      [ascii "FULLRESYNC", randomReplicationID raw, ascii "0"] := by
  have hid : randomReplicationID raw ≠ [] := by
    cases raw with
    | nil => exact absurd rfl hraw
    | cons b raw => exact cons_ne_nil _ _
  have hline : ascii "FULLRESYNC " ++ randomReplicationID raw ++ ascii " 0" =
      ascii "FULLRESYNC" ++ 32 :: (randomReplicationID raw ++ 32 :: ascii "0") := by
    rw [append_assoc]
    rfl
  rw [hline, fields_append (by decide) (by decide),
    fields_append hid (isWord_randomReplicationID raw)]
  rfl

/-- **Replacing the contents of a store** that has no limit. -/
theorem Store.replaceWith_spec (s other : Store) (env : Env) (hplain : s.maxMemoryEnabled = false) :
    (s.replaceWith other env).view = other.view ∧
      (s.replaceWith other env).maxMemoryEnabled = false := by
  have hlookup : ∀ key, (s.replaceWith other env).lookup key = other.lookup key := by
    intro key
    rw [lookup_replaceWith, hplain]
    rfl
  constructor
  · funext key
    exact congrArg (Option.map ValueObject.entry) (hlookup key)
  · rw [← hplain]
    refine enabled_of_eq ?_
    simp only [replaceWith, hplain, Bool.false_eq_true, if_false, maxMemory_publish]

inductive ResyncError where
  | unexpectedResponse
  | invalidResponse
  | unexpectedSnapshot
  | snapshot (err : Rdb.RdbError)

/-- `consumeFullResync`, for the two values of the reply. -/
def consumeFullResync (rt : Runtime) (hash : Bytes → Fin 256) (envs : Nat → Env) (env : Env)
    (response snapshot : Value) (store : Store) : Except ResyncError Store :=
  match response with
  | .simpleString line =>
    match fields line with
    | [word, id, offset] =>
      if rt.equalFold word (ascii "FULLRESYNC") ∧ id ≠ [] ∧ offset = ascii "0" then
        match snapshot with
        | .bulkString data false =>
          match Rdb.loadReader envs data (.newStore hash) with
          | .ok loaded => .ok (store.replaceWith loaded.store env)
          | .error err => .error (.snapshot err)
        | _ => .error .unexpectedSnapshot
      else .error .invalidResponse
    | _ => .error .invalidResponse
  | _ => .error .unexpectedResponse

/-- What a replica makes of the values it receives: the reply to its PSYNC, then frames. -/
def Executor.follow (y : Executor) (hash : Bytes → Fin 256) (envs : Nat → Env) :
    List (Env × Value) → World → Option World
  | (_, response) :: (env, snapshot) :: frames, w =>
    match consumeFullResync y.rt hash envs env response snapshot w.store with
    | .ok store => y.replay frames { w with store }
    | .error _ => none
  | _, _ => none

/-- A reply from which any replica without a limit gets the keyspace. -/
def Conveys (rt : Runtime) (reply : List Value) (ks : Keyspace) : Prop :=
  ∃ response snapshot, reply = [response, snapshot] ∧
    ∀ hash envs env (store : Store), store.maxMemoryEnabled = false →
      ∃ store', consumeFullResync rt hash envs env response snapshot store = .ok store' ∧
        store'.view = ks ∧ store'.maxMemoryEnabled = false

variable {w : World}

/-- **A snapshot behind which frames explain a keyspace leads a replica there.** -/
theorem Conveys.follow {y : Executor} {reply frames : List Value} {a b : Keyspace}
    (h : Conveys y.rt reply a) (hframes : Explains y.rt frames a b) (hdead : NoDeadlines a)
    (hash : Bytes → Fin 256) (envs : Nat → Env) (hplain : w.store.maxMemoryEnabled = false)
    {received : List (Env × Value)} (hreceived : received.map Prod.snd = reply ++ frames) :
    ∃ w', y.follow hash envs received w = some w' ∧ w'.store.view = b := by
  obtain ⟨response, snapshot, rfl, hconsume⟩ := h
  obtain ⟨⟨_, _⟩, rest, rfl, rfl, hrest⟩ := map_eq_cons_iff.mp hreceived
  obtain ⟨⟨env, _⟩, frames', rfl, rfl, hframes'⟩ := map_eq_cons_iff.mp hrest
  obtain ⟨store, hstore, rfl, hlimit⟩ := hconsume hash envs env w.store hplain
  have hloaded : Explains y.rt frames (World.mk store w.clients).store.view b := hframes
  obtain ⟨w', hreplay, hview⟩ := hloaded.replay hlimit hdead hframes'
  refine ⟨w', ?_, hview⟩
  simp only [Executor.follow, hstore]
  exact hreplay

/-- **PSYNC conveys a keyspace of strings.** -/
theorem Executor.handlePSync_conveys {x : Executor} {raw : Bytes} (hraw : raw ≠ [])
    (hid : x.masterReplicationID = randomReplicationID raw) {ctx : Context} {w' : World} {env : Env}
    {result : ExecuteResult} (hks : w.store.view.Transferable)
    (h : x.handlePSync ctx w env = (w', .ok result)) (rt : Runtime) :
    Conveys rt result.responses w.store.view := by
  unfold handlePSync at h
  split at h
  · cases h
  · cases h
    refine ⟨_, _, rfl, fun hash envs env' store hplain => ?_⟩
    obtain ⟨loaded, hload, -, hview⟩ :=
      loadReader_snapshotStrings hks (env.after 2) (env.now 3) envs hash
    obtain ⟨hreplaced, hlimit⟩ := store.replaceWith_spec loaded.store env' hplain
    refine ⟨store.replaceWith loaded.store env', ?_, hreplaced.trans hview, hlimit⟩
    have hid' : x.masterReplicationID ≠ [] := ‹_›
    have hword : rt.equalFold (ascii "FULLRESYNC") (ascii "FULLRESYNC") = true := rfl
    rw [hid] at hid' ⊢
    simp only [consumeFullResync, fields_fullResync hraw, Value.bulk, hload]
    rw [if_pos ⟨hword, hid', trivial⟩]

theorem Executor.handlePSync_world {x : Executor} {ctx : Context} {w' : World} {env : Env}
    {outcome : Except Failure ExecuteResult} (h : x.handlePSync ctx w env = (w', outcome)) :
    w'.store = w.store ∧ ∀ P, Queued P w → Queued P w' := by
  unfold handlePSync at h
  split at h
  · cases h
    exact ⟨rfl, fun _ hw => hw⟩
  · cases h
    exact ⟨store_updateContext _ _ _, fun P hw => hw.updateContext ctx fun _ _ hqueue => hqueue⟩

/-- A master with an identity. -/
def master : Executor :=
  { Executor.quiet with masterReplicationID := randomReplicationID (List.replicate 20 0) }

/-- A world in which one key is set. -/
def settled : World :=
  { World.initial with
    store := ((StoreOp.write (ascii "k") (.set (ascii "v") 0)).run (.newStore fun _ => 0)
      (.frozen firstSecond)).1 }

/-- A request that was executed: its connection, its number and its propagation frames. -/
structure Batch where
  client : Nat
  number : Nat
  frames : List Value

/-- The number of a request that has frames. -/
def Batch.mutation (batch : Batch) : List Nat :=
  if batch.frames.isEmpty then [] else [batch.number]

/-- How far the connection of the replica is. -/
inductive Transfer where
  | idle
  /-- the snapshot is taken after so many requests; the reply is not written -/
  | prepared (reply : List Value) (upTo : Nat)
  | replied (upTo : Nat)
  | registered (upTo : Nat)

/-- The requests that the snapshot contains. -/
def Transfer.upTo : Transfer → Option Nat
  | .idle => none
  | .prepared _ upTo => some upTo
  | .replied upTo => some upTo
  | .registered upTo => some upTo

/-- The master, as far as one replica is concerned. -/
structure Resync where
  world : World
  /-- the requests executed so far -/
  count : Nat
  /-- those still to be propagated, in the order of the executions -/
  pending : List Batch
  /-- the numbers of those that have frames -/
  mutations : List Nat
  /-- the numbers of those whose frames were propagated without the replica -/
  missed : List Nat
  /-- the numbers of those whose frames were written to the replica -/
  sent : List Nat
  transfer : Transfer
  /-- what was written to the replica -/
  stream : List Value

/-- The atomic steps. -/
inductive ResyncStep where
  /-- `ExecuteDetailed` -/
  | execute (client : Nat) (envs : Nat → Env) (value : Value)
  /-- `propagateToReplicas` with the client's propagation frames -/
  | propagate (client : Nat)
  /-- `handlePSync` for the connection of the replica -/
  | pSync (client : Nat) (env : Env)
  /-- `writeClientResponses` for that connection -/
  | reply
  /-- `registerReplicaPeer` -/
  | register

namespace Resync

/-- A master that no request is under way on. -/
def started (world : World) : Resync :=
  ⟨world, 0, [], [], [], [], .idle, []⟩

/-- The frames go to the replica if it is registered. -/
def propagateToReplicas (batch : Batch) (s : Resync) : Resync :=
  if batch.frames.isEmpty then s
  else
    match s.transfer with
    | .registered _ =>
      { s with sent := s.sent ++ [batch.number], stream := s.stream ++ batch.frames }
    | _ => { s with missed := s.missed ++ [batch.number] }

/-- One step; none if the step cannot be taken. -/
def step (x : Executor) (s : Resync) : ResyncStep → Option Resync
  | .execute client envs value =>
    if s.pending.any fun batch => batch.client = client then none
    else
      let (world, outcome) := x.executeDetailed (.ofClient client) envs value s.world
      let batch : Batch := ⟨client, s.count, Executor.propagationOf outcome⟩
      some
        { s with
          world
          count := s.count + 1
          pending := s.pending ++ [batch]
          mutations := s.mutations ++ batch.mutation }
  | .propagate client =>
    (s.pending.find? fun batch => batch.client = client).map fun batch =>
      propagateToReplicas batch
        { s with pending := s.pending.eraseP fun batch => batch.client = client }
  | .pSync client env =>
    match s.transfer, x.handlePSync (.ofClient client) s.world env with
    | .idle, (world, .ok result) =>
      some { s with world, transfer := .prepared result.responses s.count }
    | _, _ => none
  | .reply =>
    match s.transfer with
    | .prepared reply upTo =>
      some { s with transfer := .replied upTo, stream := s.stream ++ reply }
    | _ => none
  | .register =>
    match s.transfer with
    | .replied upTo => some { s with transfer := .registered upTo }
    | _ => none

/-- The mutations whose frames the replica gets, once it is registered. -/
def destined (s : Resync) : List Nat :=
  s.sent ++ s.pending.flatMap Batch.mutation

/-- **Every mutation is reflected exactly once**: it is contained in the snapshot and its frames are
not for the replica, or it is not contained and they are, once. -/
def ExactlyOnce (s : Resync) : Prop :=
  ∀ upTo, s.transfer = .registered upTo →
    ∀ n ∈ s.mutations, s.destined.count n = if n < upTo then 0 else 1

/-- **The replica comes to hold the keyspace**: once it is registered and every frame is propagated,
what was written to it leads any replica to the keyspace of the master. -/
def InSync (y : Executor) (s : Resync) : Prop :=
  ∀ upTo, s.transfer = .registered upTo → (∀ batch ∈ s.pending, batch.frames = []) →
    ∀ hash envs (w : World) (received : List (Env × Value)), w.store.maxMemoryEnabled = false →
      received.map Prod.snd = s.stream →
      ∃ w', y.follow hash envs received w = some w' ∧ w'.store.view = s.world.store.view

/-- When the replica is registered, the mutations propagated so far are contained in the snapshot,
and those still to be propagated are not. -/
def HandsOver (s : Resync) : ResyncStep → Prop
  | .register => ∀ upTo, s.transfer = .replied upTo →
    (∀ n ∈ s.missed, n < upTo) ∧ ∀ batch ∈ s.pending, batch.frames ≠ [] → upTo ≤ batch.number
  | _ => True

/-- The requests that were executed before that of a client and are still to be propagated. -/
def earlier (s : Resync) (client : Nat) : List Batch :=
  s.pending.takeWhile fun batch => batch.client ≠ client

/-- The step keeps the stream in order: requests are deterministic, the snapshot is of strings
without deadlines, and frames for the replica overtake none for one of their keys. -/
def Orderly (x : Executor) (s : Resync) : ResyncStep → Prop
  | .execute _ _ value =>
    ∀ request, decodeRequest x.rt value = .ok request → x.Deterministic request
  | .propagate client => ∀ upTo, s.transfer = .registered upTo →
    ∀ batch, s.pending.find? (fun batch => batch.client = client) = some batch →
      ∀ p ∈ s.earlier client, ∀ early ∈ p.frames, ∀ frame ∈ batch.frames,
        ∀ key ∈ frameKeys x.rt early, key ∉ frameKeys x.rt frame
  | .pSync _ _ => s.world.store.view.Transferable
  | _ => True

/-! ## Counting -/

variable {batch : Batch} {client : Nat} {s s' : Resync} {i : ResyncStep}

theorem split_pending_find (h : s.pending.find? (fun batch => batch.client = client) = some batch) :
    ∃ after, s.pending = s.earlier client ++ batch :: after ∧
      (s.pending.eraseP fun batch => batch.client = client) = s.earlier client ++ after := by
  obtain ⟨hclient, before, after, hsplit, hbefore⟩ := List.find?_eq_some_iff_append.mp h
  have hclient : batch.client = client := of_decide_eq_true hclient
  have hother : ∀ b ∈ before, b.client ≠ client := by simpa using hbefore
  have hearlier : s.earlier client = before := by
    rw [earlier, hsplit, takeWhile_append_of_pos (by simpa using hother),
      takeWhile_cons_of_neg (by simpa using hclient), append_nil]
  refine ⟨after, by rw [hearlier]; exact hsplit, ?_⟩
  rw [hearlier, hsplit, eraseP_append_right _ (by simpa using hother),
    eraseP_cons_of_pos (by simpa using hclient)]

/-- **The mutations are those missed, sent and outstanding**, and after the registration the
snapshot separates them. -/
structure Counted (s : Resync) : Prop where
  numbered : ∀ batch ∈ s.pending, batch.number < s.count
  below : ∀ n ∈ s.mutations, n < s.count
  nodup : s.mutations.Nodup
  perm : s.mutations.Perm (s.missed ++ s.destined)
  bounded : ∀ upTo, s.transfer.upTo = some upTo → upTo ≤ s.count
  unsent : (∀ upTo, s.transfer ≠ .registered upTo) → s.sent = []
  separated : ∀ upTo, s.transfer = .registered upTo →
    (∀ n ∈ s.missed, n < upTo) ∧ ∀ n ∈ s.destined, upTo ≤ n

theorem counted_started (world : World) : Counted (started world) where
  numbered := fun _ h => absurd h not_mem_nil
  below := fun _ h => absurd h not_mem_nil
  nodup := .nil
  perm := .nil
  bounded := fun _ h => by cases h
  unsent := fun _ => rfl
  separated := fun _ h => by cases h

theorem Counted.exactlyOnce (h : Counted s) : ExactlyOnce s := by
  intro upTo hregistered n hn
  obtain ⟨hmissed, hdestined⟩ := h.separated upTo hregistered
  split
  · rename_i hlt
    exact count_eq_zero_of_not_mem fun hmem => Nat.not_le_of_lt hlt (hdestined n hmem)
  · rename_i hge
    have hnodup : s.destined.Nodup := (nodup_append.mp (h.perm.nodup_iff.mp h.nodup)).2.1
    rcases mem_append.mp (h.perm.mem_iff.mp hn) with hmem | hmem
    · exact absurd (hmissed n hmem) hge
    · exact count_eq_one_of_mem hnodup hmem

theorem mem_mutation {n : Nat} : n ∈ batch.mutation ↔ batch.frames ≠ [] ∧ n = batch.number := by
  unfold Batch.mutation
  cases hframes : batch.frames with
  | nil => simp
  | cons frame frames => simp

theorem nodup_mutation (batch : Batch) : batch.mutation.Nodup := by
  unfold Batch.mutation
  split
  · exact .nil
  · exact nodup_singleton _

theorem destined_erase (h : s.pending.find? (fun batch => batch.client = client) = some batch) :
    s.destined.Perm (s.sent ++ batch.mutation ++
      (s.pending.eraseP fun batch => batch.client = client).flatMap Batch.mutation) := by
  obtain ⟨after, hsplit, herase⟩ := split_pending_find h
  rw [destined, herase, append_assoc]
  nth_rewrite 1 [hsplit]
  refine List.Perm.append_left _ ?_
  rw [flatMap_append, flatMap_cons, flatMap_append, ← append_assoc,
    ← append_assoc]
  exact perm_append_comm.append_right _

theorem propagateToReplicas_cases (batch : Batch) (s : Resync) :
    ((∃ upTo, s.transfer = .registered upTo) ∧
      propagateToReplicas batch s =
        { s with sent := s.sent ++ batch.mutation, stream := s.stream ++ batch.frames }) ∨
    ((∀ upTo, s.transfer ≠ .registered upTo) ∧
      propagateToReplicas batch s = { s with missed := s.missed ++ batch.mutation }) := by
  unfold propagateToReplicas Batch.mutation
  cases hframes : batch.frames with
  | nil =>
    cases htransfer : s.transfer with
    | registered upTo => exact .inl ⟨⟨upTo, rfl⟩, by simp [← htransfer]⟩
    | idle | prepared | replied => exact .inr ⟨(fun _ h => by cases h), by simp [← htransfer]⟩
  | cons frame frames =>
    cases htransfer : s.transfer with
    | registered upTo => exact .inl ⟨⟨upTo, rfl⟩, rfl⟩
    | idle | prepared | replied => exact .inr ⟨(fun _ h => by cases h), rfl⟩

variable {x : Executor}

section

variable (h : Counted s)
include h

theorem Counted.execute {envs : Nat → Env}
    {value : Value} (hstep : step x s (.execute client envs value) = some s') : Counted s' := by
  simp only [step] at hstep
  split at hstep
  · cases hstep
  · cases hstep
    generalize hbatch : Batch.mk client s.count (Executor.propagationOf _) = batch
    have hnumber : batch.number = s.count := by rw [← hbatch]
    have hdestined : s.sent ++ (s.pending ++ [batch]).flatMap Batch.mutation =
        s.destined ++ batch.mutation := by
      rw [flatMap_append, flatMap_singleton, ← append_assoc]
      rfl
    refine ⟨?_, ?_, ?_, ?_, fun upTo hupTo => ?_, h.unsent, fun upTo hregistered => ?_⟩
    · intro b hb
      rcases mem_append.mp hb with hold | hnew
      · exact Nat.lt_succ_of_lt (h.numbered b hold)
      · rw [mem_singleton.mp hnew, hnumber]
        exact Nat.lt_succ_self _
    · intro n hn
      rcases mem_append.mp hn with hold | hnew
      · exact Nat.lt_succ_of_lt (h.below n hold)
      · rw [(mem_mutation.mp hnew).2, hnumber]
        exact Nat.lt_succ_self _
    · refine nodup_append.mpr ⟨h.nodup, nodup_mutation batch, fun n hn m hm => ?_⟩
      rw [(mem_mutation.mp hm).2, hnumber]
      exact Nat.ne_of_lt (h.below n hn)
    · refine (h.perm.append_right _).trans (.of_eq ?_)
      rw [append_assoc, ← hdestined]
      rfl
    · exact Nat.le_succ_of_le (h.bounded upTo hupTo)
    · obtain ⟨hmissed, hold⟩ := h.separated upTo hregistered
      refine ⟨hmissed, fun n hn => ?_⟩
      have hn : n ∈ s.sent ++ (s.pending ++ [batch]).flatMap Batch.mutation := hn
      rw [hdestined] at hn
      rcases mem_append.mp hn with hn | hnew
      · exact hold n hn
      · rw [(mem_mutation.mp hnew).2, hnumber]
        exact h.bounded upTo (by rw [show s.transfer = _ from hregistered]; rfl)

theorem Counted.propagate (hstep : step x s (.propagate client) = some s') : Counted s' := by
  obtain ⟨batch, hfind, rfl⟩ := Option.map_eq_some_iff.mp hstep
  have hdestined := destined_erase hfind
  have hnumbered : ∀ batch ∈ s.pending.eraseP (fun batch => batch.client = client),
      batch.number < s.count := fun b hb => h.numbered b (mem_of_mem_eraseP hb)
  rcases propagateToReplicas_cases batch
    { s with pending := s.pending.eraseP fun batch => batch.client = client } with
    ⟨⟨upTo, hregistered⟩, heq⟩ | ⟨hregistered, heq⟩
  · rw [heq]
    refine ⟨hnumbered, h.below, h.nodup, h.perm.trans (hdestined.append_left _), h.bounded,
      fun hnone => absurd hregistered (hnone upTo), fun upTo hregistered => ?_⟩
    obtain ⟨hmissed, hold⟩ := h.separated upTo hregistered
    exact ⟨hmissed, fun n hn => hold n (hdestined.mem_iff.mpr hn)⟩
  · rw [heq]
    refine ⟨hnumbered, h.below, h.nodup, ?_, h.bounded, h.unsent,
      fun upTo hnow => absurd hnow (hregistered upTo)⟩
    -- the replica has got nothing, so the mutation moves to what it missed
    refine h.perm.trans ((hdestined.append_left _).trans (.of_eq ?_))
    rw [h.unsent hregistered, nil_append, ← append_assoc]
    simp only [destined, nil_append]

theorem Counted.step (hover : HandsOver s i) (hstep : step x s i = some s') : Counted s' := by
  cases i with
  | execute client envs value => exact h.execute hstep
  | propagate client => exact h.propagate hstep
  | pSync client env =>
    simp only [Resync.step] at hstep
    split at hstep
    · rename_i hidle _
      cases hstep
      refine ⟨h.numbered, h.below, h.nodup, h.perm, fun upTo hupTo => ?_, fun _ => ?_,
        fun upTo hregistered => by cases hregistered⟩
      · cases hupTo
        exact Nat.le_refl _
      · exact h.unsent fun upTo hregistered => by rw [hidle] at hregistered; cases hregistered
    · cases hstep
  | reply =>
    simp only [Resync.step] at hstep
    split at hstep
    · rename_i reply upTo hprepared
      cases hstep
      refine ⟨h.numbered, h.below, h.nodup, h.perm, fun upTo hupTo => ?_, fun _ => ?_,
        fun upTo hregistered => by cases hregistered⟩
      · cases hupTo
        exact h.bounded upTo (by rw [hprepared]; rfl)
      · exact h.unsent fun upTo hregistered => by rw [hprepared] at hregistered; cases hregistered
    · cases hstep
  | register =>
    simp only [Resync.step] at hstep
    split at hstep
    · rename_i upTo hreplied
      cases hstep
      obtain ⟨hmissed, hpending⟩ := hover upTo hreplied
      have hsent : s.sent = [] :=
        h.unsent fun upTo hregistered => by rw [hreplied] at hregistered; cases hregistered
      refine ⟨h.numbered, h.below, h.nodup, h.perm, fun upTo' hupTo => ?_,
        fun hnone => absurd rfl (hnone upTo), fun upTo' hregistered => ?_⟩
      · cases hupTo
        exact h.bounded upTo (by rw [hreplied]; rfl)
      · cases hregistered
        -- from here on the replica gets what is pending, and the snapshot has none of it
        refine ⟨hmissed, fun n hn => ?_⟩
        rcases mem_append.mp hn with hn | hn
        · rw [show s.sent = [] from hsent] at hn
          cases hn
        · obtain ⟨batch, hbatch, hn⟩ := mem_flatMap.mp hn
          obtain ⟨hframes, rfl⟩ := mem_mutation.mp hn
          exact hpending batch hbatch hframes
    · cases hstep

/-- **A registration at the wrong moment breaks the property.** -/
theorem Counted.handsOver
    (hstep : Resync.step x s i = some s') (honce : ExactlyOnce s') : HandsOver s i := by
  cases i with
  | register =>
    intro upTo hreplied
    simp only [Resync.step, hreplied] at hstep
    cases hstep
    have hnodup := nodup_append.mp (h.perm.nodup_iff.mp h.nodup)
    have hcount : ∀ n ∈ s.mutations, s.destined.count n = if n < upTo then 0 else 1 :=
      honce upTo rfl
    constructor
    · intro n hn
      by_contra hge
      have hone := hcount n (h.perm.mem_iff.mpr (mem_append_left _ hn))
      rw [if_neg hge] at hone
      have hmem : n ∈ s.destined := count_pos_iff.mp (by rw [hone]; exact Nat.one_pos)
      exact hnodup.2.2 n hn n hmem rfl
    · intro batch hbatch hframes
      by_contra hlt
      have hmem : batch.number ∈ s.destined :=
        mem_append_right _ (mem_flatMap.mpr ⟨batch, hbatch, mem_mutation.mpr ⟨hframes, rfl⟩⟩)
      have hzero := hcount _ (h.perm.mem_iff.mpr (mem_append_right _ hmem))
      rw [if_pos (Nat.lt_of_not_le hlt)] at hzero
      exact count_eq_zero.mp hzero hmem
  | execute | propagate | pSync | reply => trivial

end

/-! ## The keyspace of the replica -/

theorem flatMap_filter_frames {batches : List Batch} {p : Batch → Bool}
    (h : ∀ batch ∈ batches, p batch = false → batch.frames = []) :
    (batches.filter p).flatMap Batch.frames = batches.flatMap Batch.frames := by
  induction batches with
  | nil => rfl
  | cons batch batches ih =>
    have hrest := ih fun b hb => h b (mem_cons_of_mem _ hb)
    cases hp : p batch with
    | true => rw [filter_cons_of_pos hp, flatMap_cons, flatMap_cons, hrest]
    | false =>
      rw [filter_cons_of_neg (by rw [hp]; exact Bool.false_ne_true), flatMap_cons,
        h batch mem_cons_self hp, hrest]
      rfl

/-- If nothing executed since the snapshot was missed, what of it is pending leads from the snapshot
to the keyspace. -/
def Since (rt : Runtime) (upTo : Nat) (missed : List Nat) (pending : List Batch)
    (ks ks' : Keyspace) : Prop :=
  (∀ n ∈ missed, n < upTo) →
    Explains rt ((pending.filter fun batch => upTo ≤ batch.number).flatMap Batch.frames) ks ks'

/-- What the stream and the frames to come convey at each stage of the transfer. -/
def Carries (x : Executor) (s : Resync) : Transfer → Prop
  | .idle => s.stream = []
  | .prepared reply upTo =>
    s.stream = [] ∧ ∃ ks, NoDeadlines ks ∧ Conveys x.rt reply ks ∧
      Since x.rt upTo s.missed s.pending ks s.world.store.view
  | .replied upTo => ∃ ks, NoDeadlines ks ∧ Conveys x.rt s.stream ks ∧
    Since x.rt upTo s.missed s.pending ks s.world.store.view
  | .registered _ => ∃ ks reply frames, NoDeadlines ks ∧ Conveys x.rt reply ks ∧
    s.stream = reply ++ frames ∧
    Explains x.rt (frames ++ s.pending.flatMap Batch.frames) ks s.world.store.view

structure Carried (x : Executor) (s : Resync) : Prop where
  steady : x.Steady s.world
  queued : Executor.Queued Executor.Mirrored s.world
  carries : s.Carries x s.transfer

theorem Since.execute {rt : Runtime} {upTo : Nat} {missed : List Nat} {pending : List Batch}
    {a b c : Keyspace} (h : Since rt upTo missed pending a b) (hbatch : upTo ≤ batch.number)
    (hframes : Explains rt batch.frames b c) : Since rt upTo missed (pending ++ [batch]) a c := by
  intro hmissed
  rw [filter_append, filter_cons_of_pos (by simpa using hbatch), filter_nil,
    flatMap_append, flatMap_singleton]
  exact (h hmissed).append hframes

/-- A propagation that the replica misses takes a request contained in the snapshot, or else the
premise is lost. -/
theorem Since.propagate {rt : Runtime} {upTo : Nat} {missed missed' : List Nat}
    {before after : List Batch} {a b : Keyspace}
    (h : Since rt upTo missed (before ++ batch :: after) a b) (hold : ∀ n ∈ missed, n ∈ missed')
    (hbatch : batch.frames = [] ∨ batch.number ∈ missed') :
    Since rt upTo missed' (before ++ after) a b := by
  intro hmissed
  have hfiltered := h fun n hn => hmissed n (hold n hn)
  rw [filter_append, flatMap_append] at hfiltered ⊢
  by_cases hsince : upTo ≤ batch.number
  · have hframes := hbatch.resolve_right fun hmem => Nat.not_lt_of_le hsince (hmissed _ hmem)
    rw [filter_cons_of_pos (by simpa using hsince), flatMap_cons, hframes] at hfiltered
    exact hfiltered
  · rw [filter_cons_of_neg (by simpa using hsince)] at hfiltered
    exact hfiltered

theorem Carried.execute (h : Carried x s) (hcounted : Counted s)
    {envs : Nat → Env} {value : Value} (horderly : Orderly x s (.execute client envs value))
    (hstep : step x s (.execute client envs value) = some s') : Carried x s' := by
  simp only [step] at hstep
  split at hstep
  · cases hstep
  · cases hstep
    have hmirrored := fun request hdecode => (horderly request hdecode).mirrored
    obtain ⟨hexplains, hsteady⟩ := x.execute_explains
      (fun request hdecode => (horderly request hdecode).replayable) h.steady (.ofClient client) envs
    rw [← x.execute_sameFrames hmirrored h.queued rfl envs] at hexplains
    refine ⟨hsteady, h.queued.executeDetailed x (.ofClient client) envs hmirrored, ?_⟩
    have hbounded := hcounted.bounded
    have hcarries := h.carries
    dsimp only
    cases htransfer : s.transfer with
    | idle =>
      rw [htransfer] at hcarries
      exact hcarries
    | prepared reply upTo =>
      rw [htransfer] at hcarries hbounded
      obtain ⟨hstream, ks, hdead, hconveys, hsince⟩ := hcarries
      exact ⟨hstream, ks, hdead, hconveys, hsince.execute (hbounded upTo rfl) hexplains⟩
    | replied upTo =>
      rw [htransfer] at hcarries hbounded
      obtain ⟨ks, hdead, hconveys, hsince⟩ := hcarries
      exact ⟨ks, hdead, hconveys, hsince.execute (hbounded upTo rfl) hexplains⟩
    | registered upTo =>
      rw [htransfer] at hcarries
      obtain ⟨ks, reply, frames, hdead, hconveys, hstream, hframes⟩ := hcarries
      refine ⟨ks, reply, frames, hdead, hconveys, hstream, ?_⟩
      simp only [flatMap_append, flatMap_singleton]
      rw [← append_assoc]
      exact hframes.append hexplains

theorem Carried.propagate (h : Carried x s) (horderly : Orderly x s (.propagate client))
    (hstep : step x s (.propagate client) = some s') : Carried x s' := by
  obtain ⟨batch, hfind, rfl⟩ := Option.map_eq_some_iff.mp hstep
  obtain ⟨after, hsplit, herase⟩ := split_pending_find hfind
  have hcarries := h.carries
  -- a propagation without the replica, at any stage before the registration
  have hmissing : ∀ missed', (∀ n ∈ s.missed, n ∈ missed') →
      (batch.frames = [] ∨ batch.number ∈ missed') → (∀ upTo, s.transfer ≠ .registered upTo) →
      Carries x { s with pending := s.earlier client ++ after, missed := missed' } s.transfer := by
    intro missed' hold hbatch hunregistered
    cases htransfer : s.transfer with
    | idle =>
      rw [htransfer] at hcarries
      exact hcarries
    | prepared reply upTo =>
      rw [htransfer] at hcarries
      obtain ⟨hstream, ks, hdead, hconveys, hsince⟩ := hcarries
      rw [hsplit] at hsince
      exact ⟨hstream, ks, hdead, hconveys, hsince.propagate hold hbatch⟩
    | replied upTo =>
      rw [htransfer] at hcarries
      obtain ⟨ks, hdead, hconveys, hsince⟩ := hcarries
      rw [hsplit] at hsince
      exact ⟨ks, hdead, hconveys, hsince.propagate hold hbatch⟩
    | registered upTo => exact absurd htransfer (hunregistered upTo)
  rw [herase]
  rcases propagateToReplicas_cases batch { s with pending := s.earlier client ++ after } with
    ⟨⟨upTo, hregistered⟩, heq⟩ | ⟨hregistered, heq⟩
  · rw [heq]
    refine ⟨h.steady, h.queued, ?_⟩
    have hregistered : s.transfer = .registered upTo := hregistered
    rw [hregistered] at hcarries
    dsimp only
    rw [hregistered]
    obtain ⟨ks, reply, frames, hdead, hconveys, hstream, hframes⟩ := hcarries
    refine ⟨ks, reply, frames ++ batch.frames, hdead, hconveys, ?_, ?_⟩
    · rw [← append_assoc, ← hstream]
    · rw [hsplit, flatMap_append, flatMap_cons] at hframes
      rw [append_assoc, flatMap_append]
      refine hframes.promote fun early hearly => ?_
      obtain ⟨p, hp, hearly⟩ := mem_flatMap.mp hearly
      exact horderly upTo hregistered batch hfind p hp early hearly
  · rw [heq]
    refine ⟨h.steady, h.queued, hmissing _ (fun n hn => mem_append_left _ hn) ?_ hregistered⟩
    by_cases hframes : batch.frames = []
    · exact .inl hframes
    · exact .inr (mem_append_right _ (mem_mutation.mpr ⟨hframes, rfl⟩))

theorem Carried.step {raw : Bytes} (hraw : raw ≠ [])
    (hid : x.masterReplicationID = randomReplicationID raw)
    (hcounted : Counted s) (h : Carried x s) (hover : HandsOver s i) (horderly : Orderly x s i)
    (hstep : Resync.step x s i = some s') : Carried x s' := by
  have hcarries := h.carries
  cases i with
  | execute client envs value => exact h.execute hcounted horderly hstep
  | propagate client => exact h.propagate horderly hstep
  | pSync client env =>
    simp only [Resync.step] at hstep
    split at hstep
    · rename_i world result hidle hsync
      cases hstep
      rw [hidle] at hcarries
      obtain ⟨hstore, hqueues⟩ := Executor.handlePSync_world hsync
      -- every batch that is pending has its number already, so the snapshot contains it
      have hpending : (s.pending.filter fun batch => s.count ≤ batch.number) = [] := by
        rw [filter_eq_nil_iff]
        intro batch hbatch hle
        exact Nat.not_lt_of_le (of_decide_eq_true hle) (hcounted.numbered batch hbatch)
      refine ⟨⟨?_, ?_, hqueues _ h.steady.queued⟩, hqueues _ h.queued, hcarries,
        s.world.store.view, h.steady.dead, Executor.handlePSync_conveys hraw hid horderly hsync x.rt,
        fun _ => ?_⟩
      · dsimp only
        rw [hstore]
        exact h.steady.plain
      · dsimp only
        rw [hstore]
        exact h.steady.dead
      · dsimp only
        rw [hpending, hstore]
        exact .nil _ _
    · cases hstep
  | reply =>
    simp only [Resync.step] at hstep
    split at hstep
    · rename_i reply upTo hprepared
      cases hstep
      rw [hprepared] at hcarries
      obtain ⟨hstream, ks, hdead, hconveys, hsince⟩ := hcarries
      refine ⟨h.steady, h.queued, ks, hdead, ?_, hsince⟩
      dsimp only
      rw [hstream]
      exact hconveys
    · cases hstep
  | register =>
    simp only [Resync.step] at hstep
    split at hstep
    · rename_i upTo hreplied
      cases hstep
      rw [hreplied] at hcarries
      obtain ⟨ks, hdead, hconveys, hsince⟩ := hcarries
      obtain ⟨hmissed, hpending⟩ := hover upTo hreplied
      refine ⟨h.steady, h.queued, ks, s.stream, [], hdead, hconveys,
        (append_nil _).symm, ?_⟩
      have hframes := hsince hmissed
      -- a pending batch that the snapshot contains has no frames, so all of them may be sent
      rw [flatMap_filter_frames] at hframes
      · exact hframes
      · intro batch hbatch hbefore
        by_contra hne
        exact of_decide_eq_false hbefore (hpending batch hbatch hne)
    · cases hstep

theorem Carried.inSync (h : Carried x s) {y : Executor} (hrt : y.rt = x.rt) : InSync y s := by
  intro upTo hregistered hdone hash envs w received hplain hreceived
  have hcarries := h.carries
  rw [hregistered] at hcarries
  obtain ⟨ks, reply, frames, hdead, hconveys, hstream, hframes⟩ := hcarries
  rw [flatMap_eq_nil_iff.mpr hdone, append_nil, ← hrt] at hframes
  rw [← hrt] at hconveys
  rw [hstream] at hreceived
  exact hconveys.follow hframes hdead hash envs hplain hreceived

theorem carried_started {world : World} (hsteady : x.Steady world)
    (hqueued : Executor.Queued Executor.Mirrored world) : Carried x (started world) :=
  ⟨hsteady, hqueued, rfl⟩

/-- Mutations are reflected exactly once in those interleavings that hand over. -/
theorem exactlyOnce_iff_handsOver (x : Executor) (world : World) (steps : List ResyncStep) :
    Machine.Always (step x) ExactlyOnce steps (started world) ↔
      Machine.Heeds (step x) HandsOver steps (started world) :=
  always_iff_heeds (fun h hi hs => h.step hi hs) (fun h hs ho => h.handsOver hs ho)
    (fun _ h => h.exactlyOnce) (counted_started world)

/-- **The resynchronisation hands over without gap or overlap.**  In any interleaving every mutation
is reflected at the replica exactly once if and only if the registration finds everything propagated
so far in the snapshot and nothing that is still to be propagated.  If moreover the steps are
orderly, the replica has the keyspace of the master once it has everything that was written to it. -/
theorem resync_hands_over (x y : Executor) (world : World) (steps : List ResyncStep) :
    (Machine.Always (step x) ExactlyOnce steps (started world) ↔
      Machine.Heeds (step x) HandsOver steps (started world)) ∧
    ∀ raw : Bytes, raw.length = 20 → x.masterReplicationID = randomReplicationID raw →
      y.rt = x.rt → x.Steady world → Executor.Queued Executor.Mirrored world →
      Machine.Heeds (step x) (fun s i => HandsOver s i ∧ Orderly x s i) steps (started world) →
      Machine.Always (step x) (InSync y) steps (started world) := by
  refine ⟨exactlyOnce_iff_handsOver x world steps, ?_⟩
  intro raw hraw hid hrt hsteady hqueued hheeds
  have hne : raw ≠ [] := fun h => by rw [h] at hraw; cases hraw
  have hinv : Machine.Always (step x) (fun s => Counted s ∧ Carried x s) steps (started world) :=
    always_of_heeds
      (fun h hi hs => ⟨h.1.step hi.1 hs, Carried.step hne hid h.1 h.2 hi.1 hi.2 hs⟩)
      ⟨counted_started world, carried_started hsteady hqueued⟩ hheeds
  exact hinv.mono fun _ h => h.2.inSync hrt

/-- A client's SET, executed in the first second. -/
def setRequest (client : Nat) (key value : Bytes) : ResyncStep :=
  .execute client (fun _ => .frozen firstSecond) (commandFrame [ascii "SET", key, value])

theorem transferable_initial : World.initial.store.view.Transferable :=
  fun _ _ h => by cases h

/-- A key is set after the registration. -/
def setBehind : List ResyncStep :=
  [.pSync 9 (.frozen firstSecond), .reply, .register, setRequest 0 (ascii "k") (ascii "v"),
    .propagate 0]

/-- A key is set between the snapshot and the registration. -/
def setBetween : List ResyncStep :=
  [.pSync 9 (.frozen firstSecond), setRequest 0 (ascii "k") (ascii "v"), .propagate 0, .reply,
    .register]

/-- The key that is set after the registration comes to the replica. -/
theorem resync_hands_over_set :
    ∃ s, run (step master) setBehind (started .initial) = some s ∧ ExactlyOnce s ∧
      ∃ w', Executor.quiet.follow (fun _ => 0) (fun _ => .frozen firstSecond)
          (s.stream.map fun value => (.frozen firstSecond, value)) .initial = some w' ∧
        w'.store.view (ascii "k") = some ⟨.string (ascii "v"), 0⟩ := by
  have hheeds : Machine.Heeds (step master) (fun s i => HandsOver s i ∧ Orderly master s i)
      setBehind (started .initial) := by
    rintro _ ⟨⟩
    refine ⟨⟨trivial, transferable_initial⟩, ?_⟩
    rintro _ ⟨⟩
    refine ⟨⟨trivial, trivial⟩, ?_⟩
    rintro _ ⟨⟩
    refine ⟨⟨fun upTo _ => ⟨fun n hn => absurd hn not_mem_nil,
      fun batch hbatch => absurd hbatch not_mem_nil⟩, trivial⟩, ?_⟩
    rintro _ ⟨⟩
    refine ⟨⟨trivial, fun request hrequest => ?_⟩, ?_⟩
    · cases hrequest
      exact ⟨by decide, by decide⟩
    rintro _ ⟨⟩
    exact ⟨⟨trivial, fun _ _ _ _ p hp => absurd hp not_mem_nil⟩, trivial⟩
  obtain ⟨honce, hinSync⟩ := resync_hands_over master .quiet .initial setBehind
  have hsync := hinSync (List.replicate 20 0) rfl rfl rfl (master.steady_newStore fun _ => 0)
    (fun _ _ h => by cases h)
  have hlast := (honce.mpr (hheeds.mono fun _ _ h => h.1)).last rfl
  obtain ⟨w', hfollow, hview⟩ := (hsync hheeds).last rfl 0 rfl
    (fun batch hbatch => absurd hbatch not_mem_nil) (fun _ => 0)
    (fun _ => .frozen firstSecond) .initial _ rfl (Server.map_snd_at _ _)
  exact ⟨_, rfl, hlast, w', hfollow, (congrFun hview (ascii "k")).trans rfl⟩

/-- The key that is set between the snapshot and the registration is propagated to nobody, and the
replica never gets it. -/
theorem resync_loses_write :
    ∃ s, run (step master) setBetween (started .initial) = some s ∧ s.pending = [] ∧
      ¬ExactlyOnce s ∧ s.world.store.view (ascii "k") = some ⟨.string (ascii "v"), 0⟩ ∧
      ∃ w', Executor.quiet.follow (fun _ => 0) (fun _ => .frozen firstSecond)
          (s.stream.map fun value => (.frozen firstSecond, value)) .initial = some w' ∧
        w'.store.view (ascii "k") = none := by
  have hconveys := Executor.handlePSync_conveys (cons_ne_nil 0 (List.replicate 19 0))
    (show master.masterReplicationID = _ from rfl) transferable_initial
    (show master.handlePSync (.ofClient 9) .initial (.frozen firstSecond) = (_, .ok _) from rfl)
    Executor.quiet.rt
  obtain ⟨w', hfollow, hview⟩ := hconveys.follow (Explains.nil _ _) (fun _ _ h => by cases h)
    (fun _ => 0) (fun _ => .frozen firstSecond) (show World.initial.store.maxMemoryEnabled = _ from rfl)
    (Server.map_snd_at (.frozen firstSecond) _)
  refine ⟨_, rfl, rfl, fun honce => ?_, rfl, w', hfollow, (congrFun hview (ascii "k")).trans rfl⟩
  exact absurd (honce 0 rfl 0 mem_cons_self) (by decide)

end Resync

end Stash
