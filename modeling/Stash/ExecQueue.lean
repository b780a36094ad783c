import Stash.LogReplay
import Stash.WatchRuns

/-!
# A transaction is its queue

`EXEC` runs the queued commands through the same steps a request takes outside a transaction.  So it
answers with one array of what the requests would have answered, one directly after the other, and
hands on the frames they would have handed on.  The connection has left the transaction before the
first command runs, and no queued command puts it back: those that could are never queued.
-/

namespace Stash

open DecimalText GoMap Handlers List World

/-! ## Outside a transaction -/

/-- The connection is outside any transaction, with nothing queued and nothing watched. -/
structure ClientState.Outside (c : ClientState) : Prop where
  outside : c.inTransaction = false
  clean : c.txDirty = false
  intact : c.txFailed = false
  queue : c.txQueue = []
  watched : c.watchedKeys = []

namespace ClientState

/-- Commands that do not control a transaction leave the connection outside. -/
theorem Outside.change {command : CommandName} {c c' : ClientState} (h : c.Outside)
    (hplain : command.transactionControl = false) (hchange : Executor.ConnectionChange command c c') :
    c'.Outside := by
  cases hchange with
  | mode => exact ⟨h.outside, h.clean, h.intact, h.queue, h.watched⟩
  | watch => cases hplain
  | multi => cases hplain
  | discard => cases hplain

end ClientState

theorem clients_updateContext {w : World} {ctx : Context} {id : Nat}
    (hclient : ctx.client = some id) (f : ClientState → ClientState) :
    (w.updateContext ctx f).clients id = f (w.clients id) := by
  simp only [updateContext, hclient, updateClient, Function.update_self]

theorem ClientState.Outside.touch {w : World} {id : Nat} (h : (w.clients id).Outside)
    (keys : List Bytes) : ((w.touchWatchKeys keys).clients id).Outside := by
  have hsame : (w.touchWatchKeys keys).clients id = w.clients id := by
    simp only [touchWatchKeys, h.watched, any_nil, Bool.false_eq_true, if_false]
  rw [hsame]
  exact h

namespace Executor

variable (x : Executor) {ctx : Context} {id : Nat}

section

variable (hclient : ctx.client = some id)
include hclient

variable {w : World}

theorem outside_runCommand {env : Env} {c : CommandName}
    (hplain : c.transactionControl = false) (request : Request)
    (h : (w.clients id).Outside) : ((x.runCommand ctx env c request w).1.clients id).Outside := by
  unfold runCommand
  split
  · split
    · exact h
    · exact ClientState.Outside.touch (by exact h) _
  · rcases x.runOther_changes ctx env c request.args w with
      hsame | ⟨state, state', hstate, hchange, hw⟩
    · dsimp only
      rw [hsame]
      exact h
    · dsimp only
      rw [hw, clients_updateContext hclient]
      simp only [clientState, hclient, Option.map_some, Option.some.injEq] at hstate
      subst hstate
      exact h.change hplain hchange

/-- **A queued command leaves the connection outside.** -/
theorem outside_runRequest (env : Env) (queued : QueuedCommand) (h : (w.clients id).Outside) :
    ((x.runRequest ctx env queued.request w).1.clients id).Outside := by
  unfold runRequest
  split
  · exact h
  · split
    · exact h
    · next c hlookup =>
      exact x.outside_runCommand hclient (Watching.lookup_plain hlookup) queued.request h

theorem executeRequest_outside (envs : Nat → Env)
    (queued : QueuedCommand) (h : (w.clients id).Outside) :
    x.executeRequest ctx envs queued.request w = x.runRequest ctx (envs 0) queued.request w := by
  have hnone : x.maybeQueueRequest ctx queued.request ((envs 0).clock 0) w = none := by
    simp only [maybeQueueRequest, clientState, hclient, Option.map_some, h.outside,
      Bool.false_eq_true, if_false]
  unfold executeRequest runRequest
  split
  · rfl
  · rw [hnone]
    cases hlookup : x.lookup queued.request ((envs 0).clock 0) with
    | error err => rfl
    | ok c =>
      have hplain := Watching.lookup_plain hlookup
      cases c with
      | exec => cases hplain
      | _ => rfl

end

/-! ## Direct execution -/

/-- Requests executed one directly after the other, and their outcomes. -/
def executeInOrder (ctx : Context) :
    (Nat → Env) → List Request → World → World × List (Except Failure ExecuteResult)
  | _, [], w => (w, [])
  | envs, request :: rest, w =>
    let first := x.executeRequest ctx (fun _ => envs 0) request w
    let others := executeInOrder ctx (fun i => envs (i + 1)) rest first.1
    (others.1, first.2 :: others.2)

theorem length_executeInOrder (ctx : Context) (envs : Nat → Env) (requests : List Request)
    (w : World) : (x.executeInOrder ctx envs requests w).2.length = requests.length := by
  induction requests generalizing envs w with
  | nil => rfl
  | cons request rest ih => simp only [executeInOrder, length_cons, ih]

/-- The outcome is one response, or an error whose value is this. -/
inductive Gives : Except Failure ExecuteResult → Value → Prop where
  | response {result : ExecuteResult} {value : Value} (single : result.responses = [value]) :
    Gives (.ok result) value
  | refusal (err : CommandError) : Gives (.error (.refused err)) err.response

/-- The loop, from any accumulator: the responses and the frames of the direct outcomes come
behind those it has. -/
theorem execLoop_eq_inOrder (hclient : ctx.client = some id) (queue : List QueuedCommand)
    (envs : Nat → Env) {w : World} (h : (w.clients id).Outside) (acc : ExecuteResult)
    (hgives : ∀ outcome ∈ (x.executeInOrder ctx envs (queue.map QueuedCommand.request) w).2,
      ∃ value, Gives outcome value) :
    ∃ answers, List.Forall₂ Gives
        (x.executeInOrder ctx envs (queue.map QueuedCommand.request) w).2 answers ∧
      x.execLoop ctx envs queue w acc =
        ((x.executeInOrder ctx envs (queue.map QueuedCommand.request) w).1,
          .ok { acc with
            responses := [.array (acc.responses ++ answers) false]
            propagation := acc.propagation ++
              (x.executeInOrder ctx envs (queue.map QueuedCommand.request) w).2.flatMap propagationOf
            durability := acc.durability ++
              (x.executeInOrder ctx envs (queue.map QueuedCommand.request) w).2.flatMap
                durabilityOf }) ∧
      ((x.executeInOrder ctx envs (queue.map QueuedCommand.request) w).1.clients id).Outside := by
  induction queue generalizing envs w acc with
  | nil =>
    refine ⟨[], .nil, ?_, h⟩
    simp [execLoop, executeInOrder]
  | cons queued rest ih =>
    have hdirect := x.executeRequest_outside hclient (fun _ => envs 0) queued h
    have hstill := x.outside_runRequest hclient (envs 0) queued h
    simp only [map_cons, executeInOrder, hdirect, mem_cons, forall_eq_or_imp] at hgives ⊢
    obtain ⟨⟨value, hfirst⟩, hrest⟩ := hgives
    unfold execLoop
    generalize x.runRequest ctx (envs 0) queued.request w = outcome at hstill hfirst hrest ⊢
    obtain ⟨w', result⟩ := outcome
    cases hfirst with
    | refusal err =>
      obtain ⟨answers, hanswers, hloop, hend⟩ := ih (fun i => envs (i + 1)) hstill
        { acc with responses := acc.responses ++ [err.response] } hrest
      refine ⟨err.response :: answers, .cons (.refusal err) hanswers, ?_, hend⟩
      simp only [hloop, append_assoc, singleton_append, flatMap_cons, propagationOf,
        durabilityOf, nil_append]
    | @response result value hsingle =>
      obtain ⟨answers, hanswers, hloop, hend⟩ := ih (fun i => envs (i + 1)) hstill
        { acc with
          responses := acc.responses ++ [value]
          propagation := acc.propagation ++ result.propagation
          durability := acc.durability ++ result.durability } hrest
      refine ⟨value :: answers, .cons (.response hsingle) hanswers, ?_, hend⟩
      simp only [hsingle, hloop, append_assoc, singleton_append, flatMap_cons,
        propagationOf, durabilityOf]

/-- **EXEC equals running the queue.**  In a transaction that is neither dirty nor failed, and whose
commands each give one response or an error, `EXEC` answers with the array of what direct execution
gives, leaves the world direct execution leaves, and hands on its frames.  A dirty or failed
transaction runs nothing.  Either way the connection is outside afterwards. -/
theorem exec_equals_queue (hclient : ctx.client = some id) (envs : Nat → Env) {w : World}
    (hinside : (w.clients id).inTransaction = true) :
    let queue := (w.clients id).txQueue.map QueuedCommand.request
    let direct := x.executeInOrder ctx envs queue
      (w.updateContext ctx fun state => state.unwatchAll.drainTransaction)
    ((w.clients id).txDirty = false → (w.clients id).txFailed = false →
      (∀ outcome ∈ direct.2, ∃ value, Gives outcome value) →
        ∃ answers, answers.length = queue.length ∧ List.Forall₂ Gives direct.2 answers ∧
          x.handleExec ctx envs w = (direct.1, .ok ⟨[.array answers false],
            direct.2.flatMap propagationOf, direct.2.flatMap durabilityOf, [], false⟩) ∧
          (direct.1.clients id).Outside) ∧
      ((w.clients id).txDirty = true ∨ (w.clients id).txFailed = true →
        (x.handleExec ctx envs w).1.store = w.store ∧
          propagationOf (x.handleExec ctx envs w).2 = [] ∧
          durabilityOf (x.handleExec ctx envs w).2 = [] ∧
          ((x.handleExec ctx envs w).1.clients id).Outside) := by
  intro queue direct
  have hstate : w.clientState ctx = some (w.clients id) := by
    simp only [clientState, hclient, Option.map_some]
  constructor
  · intro hclean hintact hgives
    have hdrained : ((w.updateContext ctx fun state =>
        state.unwatchAll.drainTransaction).clients id).Outside := by
      rw [clients_updateContext hclient]
      exact ⟨rfl, rfl, rfl, rfl, rfl⟩
    obtain ⟨answers, hanswers, hloop, hend⟩ := x.execLoop_eq_inOrder hclient (w.clients id).txQueue
      envs hdrained (.ofResponses []) hgives
    refine ⟨answers, ?_, hanswers, ?_, hend⟩
    · rw [← hanswers.length_eq]
      exact x.length_executeInOrder ctx envs queue _
    · unfold handleExec
      simp only [hstate, hinside, hclean, hintact, if_true, Bool.false_eq_true, if_false, hloop]
      rfl
  · intro hbroken
    have hreset : ((w.updateContext ctx fun state =>
        state.resetTransaction.unwatchAll).clients id).Outside := by
      rw [clients_updateContext hclient]
      exact ⟨rfl, rfl, rfl, rfl, rfl⟩
    unfold handleExec
    simp only [hstate, hinside, if_true]
    by_cases hdirty : (w.clients id).txDirty = true
    · rw [if_pos hdirty]
      exact ⟨store_updateContext w ctx _, rfl, rfl, hreset⟩
    · rw [if_neg hdirty, if_pos (hbroken.resolve_left hdirty)]
      exact ⟨store_updateContext w ctx _, rfl, rfl, hreset⟩

/-- An ECHO, a write, and a command that is refused. -/
def mixedQueue : List QueuedCommand :=
  [⟨⟨CommandName.echo.text, [ascii "x"]⟩, by decide⟩,
    ⟨⟨CommandName.set.text, [ascii "k", ascii "v"]⟩, by decide⟩,
    ⟨⟨CommandName.incr.text, [ascii "k"]⟩, by decide⟩]

theorem exec_equals_queue_echo :
    let w : World := ⟨.newStore fun _ => 0, fun _ =>
      { ClientState.fresh with inTransaction := true, txQueue := mixedQueue }⟩
    (w.clients 0).inTransaction = true ∧
      ∃ answers, answers.length = 3 ∧
        (quiet.handleExec (.ofClient 0) (fun _ => .frozen firstSecond) w).2.map
          ExecuteResult.responses = .ok [.array answers false] := by
  intro w
  obtain ⟨answers, hlength, -, hexec, -⟩ :=
    (@exec_equals_queue quiet (.ofClient 0) 0 rfl (fun _ => .frozen firstSecond) w rfl).1 rfl rfl (by
        intro outcome houtcome
        have hmem : outcome ∈ [_, _, _] := houtcome
        simp only [mem_cons, not_mem_nil, or_false] at hmem
        rcases hmem with rfl | rfl | rfl
        · exact ⟨_, .response rfl⟩
        · exact ⟨_, .response rfl⟩
        · exact ⟨_, .refusal _⟩)
  refine ⟨rfl, answers, hlength, ?_⟩
  rw [hexec]
  rfl

end Executor

end Stash
