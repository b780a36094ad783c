import Stash.Machine
import Stash.Replay

/-!
# Deletions of expired keys

Two sweeps remove keys whose time is over without being asked: the background loop
(`evictExpiredSample`) and the measuring of the keyspace that an accounted write runs.  Both only
queue the keys under the locks of the store; the deletion is announced later, to the append-only
file and to the replicas, by whoever calls `publishExpiredKeys`.  A client that re-creates a swept
key announces its command in a step of its own as well.

In the machine every swept key gets a number, and a command is logged together with the swept keys
it re-created.  The log is in order if every command comes after the deletions of these keys.
-/

namespace Stash

open DecimalText GoMap Handlers List Function Machine

namespace Store

/-- The keys that sweeps have removed so far: those the expiration listener was called with, and
those still queued. -/
def sweptKeys (s : Store) : List Bytes :=
  s.published.flatten ++ s.pendingExpired

end Store

/-- A swept key, with its number. -/
abbrev SweptKey := Nat × Bytes

/-- What a step adds to the append-only file and to the streams of the replicas. -/
inductive LogItem where
  /-- the DEL of `recordExpiredKeys` -/
  | deletion (keys : List SweptKey)
  /-- the frames of a request for the file and for the replicas, and the swept keys that it
  re-created before their deletion was announced -/
  | request (durability propagation : List Value) (recreated : List SweptKey)

namespace LogItem

/-- The frames in the append-only file. -/
def fileFrames : LogItem → List Value
  | deletion keys => [deleteFrame (keys.map Prod.snd)]
  | request durability _ _ => durability

/-- The swept keys whose deletion a log announces. -/
def announced (log : List LogItem) : List SweptKey :=
  log.flatMap fun
    | deletion keys => keys
    | request _ _ _ => []

/-- **Deletions come first**: every request comes after the deletions of the keys it re-created,
where `seen` was announced already. -/
def InOrder (seen : List SweptKey) : List LogItem → Prop
  | [] => True
  | deletion keys :: log => InOrder (seen ++ keys) log
  | request _ _ recreated :: log => (∀ k ∈ recreated, k ∈ seen) ∧ InOrder seen log

instance decidableInOrder : (seen : List SweptKey) → (log : List LogItem) →
    Decidable (InOrder seen log)
  | _, [] => isTrue trivial
  | seen, deletion keys :: log => decidableInOrder (seen ++ keys) log
  | seen, request _ _ _ :: log =>
    have := decidableInOrder seen log
    inferInstanceAs (Decidable (_ ∧ _))

/-- **No deletion hits a newer value**: no request is followed by the deletion of a key it
re-created. -/
def Spared : List LogItem → Prop
  | [] => True
  | deletion _ :: log => Spared log
  | request _ _ recreated :: log => (∀ k ∈ recreated, k ∉ announced log) ∧ Spared log

end LogItem

/-- A request that was executed and is still to be announced. -/
structure Unannounced where
  client : Nat
  durability : List Value
  propagation : List Value
  recreated : List SweptKey

/-- The server as far as swept keys are concerned. -/
structure Sweeping where
  world : World
  /-- the number of the next swept key -/
  count : Nat
  /-- the swept keys whose deletion is not announced yet -/
  swept : List SweptKey
  pending : List Unannounced
  /-- the append-only file -/
  file : List LogItem
  /-- the replicas that are registered -/
  replicas : List Nat
  streams : Nat → List LogItem

/-- The atomic steps. -/
inductive SweepStep where
  /-- `evictExpiredSample` of the background loop -/
  | sweep (sampleSize : Nat) (env : Env)
  /-- `ExecuteDetailed` -/
  | execute (client : Nat) (envs : Nat → Env) (value : Value)
  /-- `publishExpiredKeys` and `recordExpiredKeys` -/
  | publish
  /-- the frames of a client's request are appended and propagated -/
  | announce (client : Nat)
  /-- `registerReplicaPeer` -/
  | register (replica : Nat)

namespace Sweeping

/-- A server with no file and no replicas. -/
def started (world : World) : Sweeping :=
  ⟨world, 0, [], [], [], [], fun _ => []⟩

/-- The keys that were swept on the way to a new store get their numbers. -/
def advance (s : Sweeping) (world : World) : Sweeping :=
  let keys := world.store.sweptKeys.drop s.world.store.sweptKeys.length
  { s with
    world := world
    count := s.count + keys.length
    swept := s.swept ++ (List.range' s.count keys.length).zip keys }

/-- Something goes to the append-only file and to every registered replica. -/
def emit (s : Sweeping) (item : LogItem) : Sweeping :=
  { s with
    file := s.file ++ [item]
    streams := fun replica =>
      if replica ∈ s.replicas then s.streams replica ++ [item] else s.streams replica }

/-- The swept keys that are there again after a request, and were not before it or were swept
during it. -/
def recreatedBy (before after : Sweeping) (now : Int) : List SweptKey :=
  after.swept.filter fun k =>
    (after.world.store.lookup k.2).isSome &&
      ((Store.liveValue (before.world.store.lookup k.2) now).isNone || !before.swept.contains k)

def step (x : Executor) (s : Sweeping) : SweepStep → Option Sweeping
  | .sweep sampleSize env =>
    some (s.advance { s.world with store := s.world.store.evictExpiredSample sampleSize env })
  | .execute client envs value =>
    if s.pending.any fun p => p.client = client then none
    else
      match x.executeDetailed (.ofClient client) envs value s.world with
      | (world, .ok result) =>
        let after := s.advance world
        let recreated :=
          if result.durability.isEmpty then [] else recreatedBy s after ((envs 0).now 0)
        some { after with
          pending := s.pending ++ [⟨client, result.durability, result.propagation, recreated⟩] }
      | (world, .error _) => some (s.advance world)
  | .publish =>
    if s.swept = [] then none
    else
      some { s.emit (.deletion s.swept) with
        world := ({ s.world with store := s.world.store.publishExpiredKeys } : World).touchWatchKeys
          (s.swept.map Prod.snd)
        swept := [] }
  | .announce client =>
    (s.pending.find? fun p => p.client = client).map fun p =>
      { s.emit (.request p.durability p.propagation p.recreated) with
        pending := s.pending.eraseP fun p => p.client = client }
  | .register replica =>
    if replica ∈ s.replicas then none
    else some { s with
      replicas := s.replicas ++ [replica]
      streams := update s.streams replica [] }

/-- **A published deletion never hits a newer value**: in the file every request that re-created
swept keys comes after their deletions, and in the stream of no replica such a deletion comes
later. -/
def DeletionsFirst (s : Sweeping) : Prop :=
  LogItem.InOrder [] s.file ∧ ∀ replica ∈ s.replicas, LogItem.Spared (s.streams replica)

/-- When a request is announced, the deletions of the swept keys it re-created have been. -/
def Published (s : Sweeping) : SweepStep → Prop
  | .announce client =>
    ∀ p, (s.pending.find? fun p => p.client = client) = some p → ∀ k ∈ p.recreated, k ∉ s.swept
  | _ => True

end Sweeping

/-! ## Logs -/

namespace LogItem

theorem announced_append (a b : List LogItem) : announced (a ++ b) = announced a ++ announced b :=
  flatMap_append

theorem inOrder_append {seen : List SweptKey} {a b : List LogItem} :
    InOrder seen (a ++ b) ↔ InOrder seen a ∧ InOrder (seen ++ announced a) b := by
  induction a generalizing seen with
  | nil => simp [InOrder, announced]
  | cons item a ih =>
    cases item with
    | deletion keys =>
      rw [cons_append, InOrder, InOrder, ih, append_assoc]
      exact Iff.rfl
    | request durability propagation recreated =>
      rw [cons_append, InOrder, InOrder, ih, and_assoc]
      exact Iff.rfl

variable {log : List LogItem}

theorem inOrder_request {durability propagation : List Value} {recreated : List SweptKey} :
    InOrder [] (log ++ [.request durability propagation recreated]) ↔
      InOrder [] log ∧ ∀ k ∈ recreated, k ∈ announced log := by
  rw [inOrder_append]
  simp [InOrder]

theorem inOrder_deletion {keys : List SweptKey} :
    InOrder [] (log ++ [.deletion keys]) ↔ InOrder [] log := by
  rw [inOrder_append]
  simp [InOrder]

/-- **A log in order spares what was re-created**, since no swept key is announced twice. -/
theorem InOrder.spared {seen : List SweptKey} (h : InOrder seen log)
    (hdistinct : (seen ++ announced log).Nodup) : Spared log := by
  induction log generalizing seen with
  | nil => trivial
  | cons item log ih =>
    cases item with
    | deletion keys =>
      refine @ih (seen ++ keys) h ?_
      rw [append_assoc]
      exact hdistinct
    | request durability propagation recreated =>
      refine ⟨fun k hk hlater => ?_, ih h.2 hdistinct⟩
      exact (disjoint_of_nodup_append hdistinct) (h.1 k hk) hlater

theorem Spared.of_suffix {a b : List LogItem} (h : Spared (a ++ b)) : Spared b := by
  induction a with
  | nil => exact h
  | cons item a ih =>
    cases item with
    | deletion keys => exact ih h
    | request durability propagation recreated => exact ih h.2

end LogItem

namespace Sweeping

open LogItem

/-! ## The invariant -/

/-- Every swept key has a number of its own, and is announced at most once; what a request has
re-created was swept; the streams are what the file became since their replicas were registered. -/
structure Numbered (s : Sweeping) : Prop where
  distinct : (announced s.file ++ s.swept).Nodup
  fresh : ∀ k ∈ announced s.file ++ s.swept, k.1 < s.count
  known : ∀ p ∈ s.pending, ∀ k ∈ p.recreated, k ∈ announced s.file ++ s.swept
  suffix : ∀ replica ∈ s.replicas, s.streams replica <:+ s.file
  ordered : InOrder [] s.file

theorem numbered_started (world : World) : Numbered (started world) where
  distinct := nodup_nil
  fresh _ h := (nomatch h)
  known _ h := (nomatch h)
  suffix _ h := (nomatch h)
  ordered := trivial

variable {s : Sweeping}

theorem Numbered.deletionsFirst (h : Numbered s) : s.DeletionsFirst := by
  refine ⟨h.ordered, fun replica hreplica => ?_⟩
  obtain ⟨earlier, hfile⟩ := h.suffix replica hreplica
  refine @Spared.of_suffix earlier _ ?_
  rw [hfile]
  refine h.ordered.spared ?_
  rw [nil_append]
  exact h.distinct.of_append_left

theorem mem_range_zip {count : Nat} {keys : List Bytes} {k : SweptKey}
    (h : k ∈ (List.range' count keys.length).zip keys) : count ≤ k.1 ∧ k.1 < count + keys.length := by
  have hmem := (of_mem_zip h).1
  rw [mem_range'_1] at hmem
  exact hmem

theorem nodup_range_zip (count : Nat) (keys : List Bytes) :
    ((List.range' count keys.length).zip keys).Nodup := by
  refine List.Nodup.of_map Prod.fst ?_
  rw [map_fst_zip (by simp)]
  exact nodup_range'

section

variable (h : Numbered s)
include h

/-- **Newly swept keys get new numbers.** -/
theorem Numbered.advance (world : World) :
    Numbered (s.advance world) where
  distinct := by
    unfold Sweeping.advance
    simp only
    rw [← append_assoc]
    refine List.Nodup.append h.distinct (nodup_range_zip _ _) fun k hold hnew => ?_
    have := h.fresh k hold
    have := (mem_range_zip hnew).1
    omega
  fresh := by
    intro k hk
    unfold Sweeping.advance at hk ⊢
    simp only [← append_assoc] at hk ⊢
    rcases mem_append.mp hk with hold | hnew
    · exact Nat.lt_of_lt_of_le (h.fresh k hold) (Nat.le_add_right _ _)
    · exact (mem_range_zip hnew).2
  known := by
    intro p hp k hk
    unfold Sweeping.advance
    simp only [← append_assoc]
    exact mem_append_left _ (h.known p hp k hk)
  suffix := h.suffix
  ordered := h.ordered

theorem Numbered.suffix_emit (item : LogItem) :
    ∀ replica ∈ s.replicas, (s.emit item).streams replica <:+ (s.emit item).file := by
  intro replica hreplica
  unfold emit
  simp only [if_pos hreplica]
  obtain ⟨earlier, hfile⟩ := h.suffix replica hreplica
  exact ⟨earlier, by rw [← hfile, append_assoc]⟩

theorem Numbered.announce {p : Unannounced} (hp : p ∈ s.pending)
    {client : Nat} (hpublished : ∀ k ∈ p.recreated, k ∉ s.swept) :
    Numbered { s.emit (.request p.durability p.propagation p.recreated) with
      pending := s.pending.eraseP fun p => p.client = client } := by
  have hsame : announced (s.file ++ [.request p.durability p.propagation p.recreated]) =
      announced s.file := by
    rw [announced_append]
    exact append_nil _
  refine ⟨?_, ?_, ?_, h.suffix_emit _, ?_⟩
  · unfold emit
    rw [hsame]
    exact h.distinct
  · unfold emit
    rw [hsame]
    exact h.fresh
  · unfold emit
    rw [hsame]
    exact fun q hq => h.known q (mem_of_mem_eraseP hq)
  · refine inOrder_request.mpr ⟨h.ordered, fun k hk => ?_⟩
    exact (mem_append.mp (h.known p hp k hk)).resolve_right (hpublished k hk)

/-- **What one step does**: every step keeps the invariant, an announcement if the deletions were
published. -/
theorem Numbered.step {x : Executor} {s' : Sweeping} {a : SweepStep}
    (hpublished : s.Published a) (hstep : s.step x a = some s') : Numbered s' := by
  cases a with
  | sweep sampleSize env =>
    cases hstep
    exact h.advance _
  | execute client envs value =>
    simp only [Sweeping.step] at hstep
    split at hstep
    · cases hstep
    · split at hstep
      · rename_i world result _
        cases hstep
        have hadvance := h.advance world
        refine ⟨hadvance.distinct, hadvance.fresh, fun p hp k hk => ?_, hadvance.suffix,
          hadvance.ordered⟩
        rcases mem_append.mp hp with hp | hp
        · exact hadvance.known p hp k hk
        · -- the request re-created keys of the sweeper's list only
          obtain rfl := mem_singleton.mp hp
          simp only at hk
          split at hk
          · cases hk
          · exact mem_append_right _ (mem_filter.mp hk).1
      · cases hstep
        exact h.advance _
  | publish =>
    simp only [Sweeping.step] at hstep
    split at hstep
    · cases hstep
    · cases hstep
      -- the swept keys move from the list to the file, and no key appears or vanishes
      have hmoved : announced (s.file ++ [.deletion s.swept]) ++ [] = announced s.file ++ s.swept := by
        rw [announced_append, append_nil]
        exact congrArg _ (append_nil _)
      refine ⟨?_, ?_, ?_, h.suffix_emit _, inOrder_deletion.mpr h.ordered⟩
      · unfold emit
        rw [hmoved]
        exact h.distinct
      · unfold emit
        rw [hmoved]
        exact h.fresh
      · unfold emit
        rw [hmoved]
        exact h.known
  | announce client =>
    simp only [Sweeping.step, Option.map_eq_some_iff] at hstep
    obtain ⟨p, hp, rfl⟩ := hstep
    exact h.announce (mem_of_find?_eq_some hp) (hpublished p hp)
  | register replica =>
    simp only [Sweeping.step] at hstep
    split at hstep
    · cases hstep
    · rename_i hnew
      cases hstep
      refine ⟨h.distinct, h.fresh, h.known, fun r hr => ?_, h.ordered⟩
      dsimp only at hr ⊢
      by_cases heq : r = replica
      · rw [heq, update_self]
        exact nil_suffix
      · rw [update_of_ne heq]
        refine h.suffix r ((mem_append.mp hr).resolve_right fun hr => heq ?_)
        exact mem_singleton.mp hr

/-- A request that is announced too early is logged before the deletion. -/
theorem Numbered.published {x : Executor} {s' : Sweeping} {a : SweepStep}
    (hstep : s.step x a = some s') (hfirst : s'.DeletionsFirst) : s.Published a := by
  cases a with
  | announce client =>
    intro p hp k hk hswept
    simp only [Sweeping.step, Option.map_eq_some_iff] at hstep
    obtain ⟨q, hq, rfl⟩ := hstep
    obtain rfl := Option.some.inj (hp.symm.trans hq)
    have hannounced := (inOrder_request.mp hfirst.1).2 k hk
    exact (disjoint_of_nodup_append h.distinct) hannounced hswept
  | sweep | execute | publish | register => trivial

end

/-- **A published deletion never hits a newer value in any state of a run if and only if every
request is announced after the deletions of the swept keys it re-created.** -/
theorem deletions_first_iff (x : Executor) (world : World) (steps : List SweepStep) :
    Machine.Always (Sweeping.step x) DeletionsFirst steps (started world) ↔
      Machine.Heeds (Sweeping.step x) Published steps (started world) :=
  always_iff_heeds (fun hs hp hstep => Numbered.step hs hp hstep)
    (fun hs hstep hfirst => hs.published hstep hfirst) (fun _ hs => hs.deletionsFirst)
    (numbered_started world)

/-- A request in the first second. -/
def send (client : Nat) (args : List String) : SweepStep :=
  .execute client (fun _ => .frozen firstSecond) (commandFrame (args.map ascii))

/-- Ten seconds later. -/
def tenSeconds : Instant :=
  .ofMillis 10000 (by decide)

/-- A key that was swept is written again, and the write is announced before the deletion. -/
def overtaken : List SweepStep :=
  [send 0 ["SET", "k", "a", "PX", "5"], .announce 0, .sweep 20 (.frozen tenSeconds),
    .execute 0 (fun _ => .frozen tenSeconds) (commandFrame [ascii "SET", ascii "k", ascii "b"]),
    .announce 0, .publish]

/-- The run ends with the key in the store and a file whose replay deletes it. -/
theorem deletion_hits_newer_value :
    ¬Machine.Always (Sweeping.step .quiet) DeletionsFirst overtaken (started .initial) ∧
      ((run (Sweeping.step .quiet) overtaken (started .initial)).bind fun s =>
        (Executor.quiet.replay ((s.file.flatMap LogItem.fileFrames).map fun frame =>
          (.frozen tenSeconds, frame)) .initial).map fun w =>
            ((s.world.store.lookup (ascii "k")).isSome, (w.store.lookup (ascii "k")).isSome)) =
        some (true, false) := by
  refine ⟨fun h => ?_, by decide +kernel⟩
  have hrun : (run (Sweeping.step .quiet) overtaken (started .initial)).map
      (fun s => decide (InOrder [] s.file)) = some false := by decide +kernel
  obtain ⟨s, hs, hdecide⟩ := Option.map_eq_some_iff.mp hrun
  exact of_decide_eq_false hdecide (h.last hs).1

end Sweeping

end Stash
