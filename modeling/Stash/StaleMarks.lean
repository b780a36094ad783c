import Stash.WatchRuns

/-!
# Marks that come late

`Touch` marks the clients it found in the registry after it has released the registry's lock.  By
then a client may have ended the transaction it watched the key for, and `MULTI` keeps a mark that
is there.  A mark that reaches an idle client fails a transaction that watches nothing.

The invariant is local to a connection: an idle one carries no mark.  Every step but
`MarkTransactionFailed` keeps it, and that one keeps it exactly when its target is not idle.
-/

namespace Stash

open Function Machine

namespace Watching

/-- The client watches no key and is not between `UnwatchAll` and `ClearTransactionFailure` of a
transaction that was begun while it watched one. -/
def IdleAt (state : ClientState) (c : Connection) : Prop :=
  state.watchedKeys = [] ∧ ∀ goesOn, c.phase = .clearing goesOn → c.since = []

def Idle (s : Watching) (client : Nat) : Prop :=
  IdleAt (s.world.clients client) (s.connections client)

/-- **No spurious abort**: the transaction of an idle client is not marked as failed. -/
def NoSpuriousAbort (s : Watching) : Prop :=
  ∀ client, s.Idle client → (s.world.clients client).txFailed = false

/-- The step meets its condition: a mark finds its target still busy with what it watched. -/
def MarksInTime (s : Watching) : WatchStep → Prop
  | .mark _ target => ¬s.Idle target
  | _ => True

/-! ## The invariant of a connection -/

/-- What holds of a connection: the keys watched for the transaction at hand are all the keys it
watches, past `UnwatchAll` there are none, and there is no mark when it is idle. -/
structure SettledAt (state : ClientState) (c : Connection) : Prop where
  begun : c.since = [] → state.watchedKeys = []
  unwatched : c.phase ≠ .ready → (∀ goesOn, c.phase ≠ .unwatching goesOn) → state.watchedKeys = []
  unmarked : IdleAt state c → state.txFailed = false

def Settled (s : Watching) : Prop :=
  ∀ client, SettledAt (s.world.clients client) (s.connections client)

theorem settled_started (store : Store) : Settled (started store) :=
  fun _ => ⟨fun _ => rfl, fun _ _ => rfl, fun _ => rfl⟩

variable {state state' : ClientState} {c : Connection} {client : Nat} {s s' : Watching}
    {env : Env} {x : Executor}

theorem SettledAt.congr {c' : Connection} (h : SettledAt state c) (hsame : SameWatch state state')
    (hphase : c'.phase = c.phase) (hsince : c'.since = c.since) : SettledAt state' c' := by
  obtain ⟨hwatched, hfailed⟩ := hsame
  refine ⟨fun hnone => ?_, fun hready hunwatching => ?_, fun hidle => ?_⟩
  · rw [hwatched]
    exact h.begun (hsince ▸ hnone)
  · rw [hwatched]
    rw [hphase] at hready hunwatching
    exact h.unwatched hready hunwatching
  · rw [hfailed]
    unfold IdleAt at hidle
    rw [hwatched, hphase, hsince] at hidle
    exact h.unmarked hidle

/-- A step that gives one connection a new state. -/
theorem Settled.own (h : Settled s) (hconnections : s'.connections = update s.connections client c)
    (hclients : s'.world.clients = update s.world.clients client state)
    (hsettled : SettledAt state c) : Settled s' := by
  intro id
  rw [hconnections, hclients]
  by_cases hid : id = client
  · subst hid
    rw [update_self, update_self]
    exact hsettled
  · rw [update_of_ne hid, update_of_ne hid]
    exact h id

/-! ## The steps -/

theorem Settled.operate (h : Settled s) (x : Executor) (client : Nat)
    (run : StoreRun) : Settled (s.operate x client run) := by
  intro id
  refine (h id).congr (.refl _) ?_ ?_
  all_goals
    simp only [Watching.operate]
    split <;> rfl

/-- **`WATCH`** ends the idleness of a client, if it names a key. -/
theorem Settled.watch (h : Settled s) (hphase : (s.connections client).phase = .ready)
    (keys : List Bytes) : Settled (s.watch client keys) := by
  refine h.own rfl rfl ⟨fun hnone => ?_, fun hready => absurd hphase hready, fun hidle => ?_⟩
  · obtain ⟨hsince, hkeys⟩ := List.append_eq_nil_iff.mp hnone
    exact List.append_eq_nil_iff.mpr ⟨(h client).begun hsince, hkeys⟩
  · refine (h client).unmarked ⟨(List.append_eq_nil_iff.mp hidle.1).1, fun goesOn hclearing => ?_⟩
    rw [hphase] at hclearing
    cases hclearing

/-- `EXEC` and `DISCARD` up to `UnwatchAll`. -/
theorem SettledAt.ending (h : SettledAt state c)
    (hphase : c.phase = .ready) (goesOn : Bool) (hwatched : state'.watchedKeys = state.watchedKeys)
    (hfailed : state'.txFailed = state.txFailed ∨ state'.txFailed = false) :
    SettledAt state' { c with phase := .unwatching goesOn } := by
  refine ⟨fun hnone => ?_, fun _ hunwatching => absurd rfl (hunwatching goesOn), fun hidle => ?_⟩
  · rw [hwatched]
    exact h.begun hnone
  · rcases hfailed with hfailed | hfailed
    · rw [hfailed]
      refine h.unmarked ⟨hwatched ▸ hidle.1, fun _ hclearing => ?_⟩
      rw [hphase] at hclearing
      cases hclearing
    · exact hfailed

section

variable (h : Settled s)
include h

theorem Settled.exec
    (hphase : (s.connections client).phase = .ready) : Settled (s.exec client) := by
  unfold Watching.exec
  simp only
  split
  · split
    · exact h.own rfl rfl ((h client).ending hphase false rfl (.inr rfl))
    · exact h.own rfl (update_eq_self client _).symm
        ((h client).ending hphase true rfl (.inl rfl))
  · exact h

theorem Settled.discard
    (hphase : (s.connections client).phase = .ready) : Settled (s.discard client) := by
  unfold Watching.discard
  split
  · exact h.own rfl rfl ((h client).ending hphase false rfl (.inr rfl))
  · exact h

theorem Settled.sameWatch {w : World}
    (hsame : ∀ id, SameWatch (s.world.clients id) (w.clients id)) : Settled { s with world := w } :=
  fun id => (h id).congr (hsame id) rfl rfl

/-- **A command up to its first atomic step.**  The commands that control a transaction are not
queued, so they find their connection between two requests. -/
theorem Settled.dispatch {c : CommandName} {args : List Bytes}
    (hcontrol : c.transactionControl = true → (s.connections client).phase = .ready) :
    Settled (s.dispatch x client env c args) := by
  unfold Watching.dispatch
  split
  · exact h.exec (hcontrol rfl)
  · exact h.discard (hcontrol rfl)
  · split
    · exact h
    · exact h.watch (hcontrol rfl) args
  · rename_i hexec hdiscard hwatch
    split
    · exact h.operate x client _
    · exact h.sameWatch (sameWatch_runOther x hwatch hdiscard (.ofClient client) env args s.world)

theorem Settled.begin {request : Request}
    (hphase : (s.connections client).phase = .ready) : Settled (s.begin x client env request) := by
  unfold Watching.begin
  cases hadmission : s.admission x client env request with
  | refused => exact h
  | answered world => exact h.sameWatch (sameWatch_answered hadmission)
  | runs c => exact h.dispatch fun _ => hphase

end

/-- **`UnwatchAll`**: a client that watched nothing was idle before. -/
theorem SettledAt.unwatch {goesOn : Bool}
    (h : SettledAt state c) (hphase : c.phase = .unwatching goesOn) :
    SettledAt { state with watchedKeys := [] } { c with phase := .clearing goesOn } := by
  refine ⟨fun _ => rfl, fun _ _ => rfl, fun hidle => ?_⟩
  have hnone := h.begun (hidle.2 goesOn rfl)
  refine h.unmarked ⟨hnone, fun _ hclearing => ?_⟩
  rw [hphase] at hclearing
  cases hclearing

/-- **`ClearTransactionFailure`.** -/
theorem SettledAt.clear {c' : Connection} {goesOn : Bool} (h : SettledAt state c)
    (hphase : c.phase = .clearing goesOn) (hwatched : state'.watchedKeys = state.watchedKeys)
    (hfailed : state'.txFailed = false) : SettledAt state' c' := by
  have hnone : state.watchedKeys = [] := h.unwatched (by rw [hphase]; rintro ⟨⟩)
    (by rw [hphase]; rintro _ ⟨⟩)
  rw [← hwatched] at hnone
  exact ⟨fun _ => hnone, fun _ _ => hnone, fun _ => hfailed⟩

/-- The history of a connection ends with its first queued command: it watches nothing by then. -/
theorem Settled.forget (h : Settled s) {queue : List QueuedCommand}
    (hphase : (s.connections client).phase = .starting queue ∨
      (s.connections client).phase = .running queue) (phase : Phase) :
    Settled (s.onConnection client fun c =>
      { c with phase := phase, since := [], changed := fun _ => False }) := by
  have hnone : (s.world.clients client).watchedKeys = [] := by
    refine (h client).unwatched ?_ ?_
    · rcases hphase with hphase | hphase <;> rw [hphase] <;> rintro ⟨⟩
    · rcases hphase with hphase | hphase <;> rw [hphase] <;> rintro _ ⟨⟩
  refine h.own rfl (update_eq_self client _).symm
    ⟨fun _ => hnone, fun _ _ => hnone, fun _ => (h client).unmarked ⟨hnone, fun goesOn hclearing => ?_⟩⟩
  rcases hphase with hphase | hphase <;> rw [hphase] at hclearing <;> cases hclearing

theorem Settled.runQueued (h : Settled s)
    (queued : QueuedCommand) : Settled (s.runQueued x client env queued.request) := by
  unfold Watching.runQueued
  split
  · exact h
  · rename_i c hadmission
    refine h.dispatch fun hcontrol => ?_
    rw [admitQueued_plain hadmission] at hcontrol
    cases hcontrol

/-- **A queued command**, or the end of the queue. -/
theorem Settled.queued (h : Settled s)
    (hstep : s.step x (.queued client env) = some s') : Settled s' := by
  simp only [Watching.step] at hstep
  obtain ⟨-, hqueued⟩ := Option.ite_none_right_eq_some.mp hstep
  split at hqueued
  · rename_i hphase
    cases hqueued
    exact h.forget (.inl hphase) _
  · rename_i hphase
    cases hqueued
    exact h.forget (.inr hphase) _
  · rename_i queued rest hphase
    cases hqueued
    exact (h.forget (.inl hphase) (.running rest)).runQueued queued
  · rename_i queued rest hphase
    cases hqueued
    exact (h.forget (.inr hphase) (.running rest)).runQueued queued
  · cases hqueued

/-- The state after a mark: the target is as idle as it was. -/
theorem mark_spec {target : Nat} (hstep : s.step x (.mark client target) = some s') :
    (∀ id, (s'.world.clients id).watchedKeys = (s.world.clients id).watchedKeys ∧
      (s'.connections id).phase = (s.connections id).phase ∧
      (s'.connections id).since = (s.connections id).since) ∧
    (∀ id, id ≠ target → (s'.world.clients id).txFailed = (s.world.clients id).txFailed) ∧
    (s'.world.clients target).txFailed = true := by
  simp only [Watching.step] at hstep
  obtain ⟨-, hmarked⟩ := Option.ite_none_right_eq_some.mp hstep
  cases hmarked
  refine ⟨fun id => ⟨?_, ?_, ?_⟩, fun id hid => ?_, ?_⟩
  · simp only [onConnection, onClient, clients_updateClient]
    split
    · rename_i hid
      rw [hid]
    · rfl
  · change (update s.connections client _ id).phase = _
    by_cases hid : id = client
    · subst hid
      rw [update_self]
      rfl
    · rw [update_of_ne hid]
  · change (update s.connections client _ id).since = _
    by_cases hid : id = client
    · subst hid
      rw [update_self]
      rfl
    · rw [update_of_ne hid]
  · simp only [onConnection, onClient, clients_updateClient, if_neg hid]
  · simp only [onConnection, onClient, clients_updateClient, if_pos]

theorem idle_mark {target : Nat}
    (hstep : s.step x (.mark client target) = some s') (id : Nat) : s'.Idle id ↔ s.Idle id := by
  obtain ⟨hwatched, hphase, hsince⟩ := (mark_spec hstep).1 id
  unfold Idle IdleAt
  rw [hwatched, hphase, hsince]

/-- **A step that marks in time keeps idle clients unmarked.** -/
theorem Settled.step {a : WatchStep} (h : Settled s)
    (htime : s.MarksInTime a) (hstep : s.step x a = some s') : Settled s' := by
  cases a with
  | request client env request =>
    simp only [Watching.step] at hstep
    split at hstep
    · rename_i hphase
      obtain ⟨-, hbegin⟩ := Option.ite_none_right_eq_some.mp hstep
      cases hbegin
      exact h.begin hphase
    · cases hstep
  | snapshot client =>
    simp only [Watching.step] at hstep
    split at hstep
    · cases hstep
    · obtain ⟨-, hmarked⟩ := Option.ite_none_right_eq_some.mp hstep
      cases hmarked
      exact h.own rfl (update_eq_self client _).symm ((h client).congr (.refl _) rfl rfl)
  | mark client target =>
    have hidle := idle_mark hstep
    obtain ⟨hsame, hfailed, -⟩ := mark_spec hstep
    intro id
    obtain ⟨hwatched, hphase, hsince⟩ := hsame id
    refine ⟨fun hnone => ?_, fun hready hunwatching => ?_, fun hid => ?_⟩
    · rw [hwatched]
      exact (h id).begun (hsince ▸ hnone)
    · rw [hwatched]
      rw [hphase] at hready hunwatching
      exact (h id).unwatched hready hunwatching
    · have hid := (hidle id).mp hid
      by_cases htarget : id = target
      · subst htarget
        exact absurd hid htime
      · rw [hfailed id htarget]
        exact (h id).unmarked hid
  | unwatch client =>
    simp only [Watching.step] at hstep
    split at hstep
    · rename_i goesOn hphase
      cases hstep
      exact h.own rfl rfl ((h client).unwatch hphase)
    · cases hstep
  | clear client =>
    simp only [Watching.step] at hstep
    split at hstep
    · rename_i hphase
      cases hstep
      exact h.own rfl rfl ((h client).clear hphase rfl rfl)
    · rename_i hphase
      cases hstep
      exact h.own rfl rfl ((h client).clear hphase rfl rfl)
    · cases hstep
  | queued client env => exact h.queued hstep

/-- A mark that reaches an idle client stains it. -/
theorem marksInTime_of_noSpuriousAbort {a : WatchStep}
    (hstep : s.step x a = some s') (h : s'.NoSpuriousAbort) : s.MarksInTime a := by
  cases a with
  | mark client target =>
    intro hidle
    have hunmarked := h target ((idle_mark hstep target).mpr hidle)
    rw [(mark_spec hstep).2.2] at hunmarked
    cases hunmarked
  | request | snapshot | unwatch | clear | queued => trivial

/-- **No spurious abort**: the transactions of idle clients are unmarked in every state of a run
exactly when every mark of the run finds its target watching a key or ending the transaction it
watched one for. -/
theorem no_spurious_abort_iff (x : Executor) (store : Store) (steps : List WatchStep) :
    Machine.Always (Watching.step x) NoSpuriousAbort steps (started store) ↔
      Machine.Heeds (Watching.step x) MarksInTime steps (started store) :=
  always_iff_heeds (fun hs ht hstep => Settled.step hs ht hstep)
    (fun _ hstep hnone => marksInTime_of_noSpuriousAbort hstep hnone)
    (fun _ hsettled client => (hsettled client).unmarked) (settled_started store)

/-- Client 1 writes a key that client 0 watches and finds it among the watchers; client 0 gives its
transaction up; then the mark arrives. -/
def lateMark : List WatchStep :=
  [send 0 "WATCH" ["k"], send 1 "SET" ["k", "v"], .snapshot 1, send 0 "MULTI" [],
    send 0 "DISCARD" [], .unwatch 0, .clear 0, .mark 1 0]

/-- An idle client is marked.  It begins a transaction and watches nothing, and its `EXEC` aborts. -/
theorem spurious_abort :
    ¬Machine.Always (Watching.step .quiet) NoSpuriousAbort lateMark
        (started (.newStore fun _ => 0)) ∧
      ∃ s, run (Watching.step .quiet) (lateMark ++ [send 0 "MULTI" []])
          (started (.newStore fun _ => 0)) = some s ∧
        (s.world.clients 0).inTransaction = true ∧ (s.world.clients 0).txDirty = false ∧
        (s.connections 0).since = [] ∧ ((s.exec 0).connections 0).phase = .unwatching false := by
  refine ⟨fun h => ?_, _, rfl, rfl, rfl, rfl, rfl⟩
  have hend := h.last rfl
  have hidle : ∀ goesOn, Phase.ready = .clearing goesOn → ([] : List Bytes) = [] := fun _ _ => rfl
  cases hend 0 ⟨rfl, hidle⟩

end Watching

end Stash
