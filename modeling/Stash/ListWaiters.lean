import Stash.Machine
import Stash.StorageBase

/-!
# Clients that wait for a list

A `BLPOP` subscribes a channel, tries to pop, and with nothing to pop waits on the channel and starts
again; a push changes the list and then notifies the channel that was subscribed first.  The list and
the queue of channels are under different locks, so the two halves of a push, and the parts of a
`BLPOP`, are steps of their own and may fall between any others.

A push notifies one client however many elements it adds.  When two clients wait and one push adds
two elements, the second client sleeps beside what the first one left.  That needs a second
subscriber: as long as a notification never finds more than one, nobody sleeps.

The machine is that of one key which holds a list or nothing, for clients that may wait.  A client is
its goroutine: it has one channel at a time, new and empty with each subscription.
-/

namespace Stash

open Function List

/-- Where a client is in `handleBLPop`. -/
inductive WaiterPhase where
  | idle
  /-- subscribed, before `LeftPop` -/
  | subscribed
  /-- has an element, before unsubscribing -/
  | popped
  /-- blocked in the `select` -/
  | waiting
  /-- received from its channel, before unsubscribing -/
  | woken
  /-- its context is done, before unsubscribing -/
  | canceled
  /-- at the start of the loop once more -/
  | retrying
  deriving DecidableEq, Repr

/-- A client and whether its channel holds a notification. -/
structure Waiter where
  phase : WaiterPhase
  notified : Bool
  deriving DecidableEq, Repr

/-- A key, its channels in the order of their subscription, its clients, and the pushes that have
changed the list and not notified yet. -/
structure Waiting where
  items : List Bytes
  queue : List Nat
  clients : Nat → Waiter
  pushes : Nat

inductive WaitStep where
  /-- the list under its lock: `pushList` up to `notifyOne` -/
  | push (left : Bool) (values : List Bytes)
  | notifyOne
  | subscribe (client : Nat)
  | leftPop (client : Nat)
  | wake (client : Nat)
  | cancel (client : Nat)
  | unsubscribe (client : Nat)
  deriving DecidableEq, Repr

namespace Waiting

/-- A key with a list and no client. -/
def initial (items : List Bytes) : Waiting :=
  ⟨items, [], fun _ => ⟨.idle, false⟩, 0⟩

def setClient (st : Waiting) (client : Nat) (waiter : Waiter) : Waiting :=
  { st with clients := update st.clients client waiter }

/-- `notifyOne`: the channel at the front leaves the queue and is sent to, unless it is full. -/
def notify (st : Waiting) : Waiting :=
  match st.queue with
  | [] => st
  | client :: rest =>
    { st with queue := rest }.setClient client { st.clients client with notified := true }

/-- The phase after unsubscribing. -/
def afterUnsubscribe : WaiterPhase → Option WaiterPhase
  | .popped => some .idle
  | .canceled => some .idle
  | .woken => some .retrying
  | _ => none

def step (st : Waiting) : WaitStep → Option Waiting
  | .push left values =>
    if values = [] then none
    else some { st with
      items := if left then values.reverse ++ st.items else st.items ++ values
      pushes := st.pushes + 1 }
  | .notifyOne =>
    if st.pushes = 0 then none else some { st.notify with pushes := st.pushes - 1 }
  | .subscribe client =>
    if (st.clients client).phase = .idle ∨ (st.clients client).phase = .retrying then
      some ({ st with queue := st.queue ++ [client] }.setClient client ⟨.subscribed, false⟩)
    else none
  | .leftPop client =>
    if (st.clients client).phase = .subscribed then
      if st.items = [] then
        some (st.setClient client ⟨.waiting, (st.clients client).notified⟩)
      else
        some ({ st with items := st.items.tail }.setClient client
          ⟨.popped, (st.clients client).notified⟩)
    else none
  | .wake client =>
    if st.clients client = ⟨.waiting, true⟩ then some (st.setClient client ⟨.woken, false⟩)
    else none
  | .cancel client =>
    if (st.clients client).phase = .waiting then
      some (st.setClient client ⟨.canceled, (st.clients client).notified⟩)
    else none
  | .unsubscribe client =>
    (afterUnsubscribe (st.clients client).phase).map fun phase =>
      { st with queue := st.queue.filter (· ≠ client) }.setClient client
        ⟨phase, (st.clients client).notified⟩

/-- No push and no pop is in progress. -/
def Settled (st : Waiting) : Prop :=
  st.pushes = 0 ∧
    ∀ client, (st.clients client).phase = .idle ∨ (st.clients client).phase = .waiting

/-- **Nobody sleeps beside a list**: with nothing in progress and elements in the list, whoever waits
has a notification. -/
def NoSleeper (st : Waiting) : Prop :=
  st.Settled → st.items ≠ [] →
    ∀ client, (st.clients client).phase = .waiting → (st.clients client).notified = true

/-- A notification finds one subscriber at most. -/
def OneSubscriber (st : Waiting) (move : WaitStep) : Prop :=
  move = .notifyOne → st.queue.length ≤ 1

/-- What holds in between: a client that waits, or is about to, is in the queue until it is
notified; and with elements in the list and no notification under way everyone who waits has one. -/
structure Sound (st : Waiting) : Prop where
  queued : ∀ client, (st.clients client).phase = .subscribed ∨ (st.clients client).phase = .waiting →
    (st.clients client).notified = false → client ∈ st.queue
  told : st.items ≠ [] → st.pushes = 0 →
    ∀ client, (st.clients client).phase = .waiting → (st.clients client).notified = true

theorem sound_initial (items : List Bytes) : (initial items).Sound where
  queued := by
    intro client hphase
    rcases hphase with hphase | hphase
    · cases hphase
    · cases hphase
  told := by
    intro _ _ client hphase
    cases hphase

variable {st : Waiting}

/-- A client moves on its own: the others stay in the queue, and it has to stay there as well if it
waits unnotified. -/
theorem Sound.setClient (h : st.Sound) {client : Nat} {waiter : Waiter}
    {items : List Bytes} {queue : List Nat}
    (hothers : ∀ other, other ≠ client → other ∈ st.queue → other ∈ queue)
    (hself : waiter.phase = .subscribed ∨ waiter.phase = .waiting → waiter.notified = false →
      client ∈ queue) (hitems : items ≠ [] → st.items ≠ [])
    (htold : items ≠ [] → waiter.phase = .waiting → waiter.notified = true) :
    (({ st with items := items, queue := queue } : Waiting).setClient client waiter).Sound where
  queued := by
    intro other hphase hnotified
    by_cases heq : other = client
    · subst heq
      simp only [Waiting.setClient, update_self] at hphase hnotified
      exact hself hphase hnotified
    · simp only [Waiting.setClient, update_of_ne heq] at hphase hnotified
      exact hothers other heq (h.queued other hphase hnotified)
  told := by
    intro hne hpushes other hphase
    by_cases heq : other = client
    · subst heq
      simp only [Waiting.setClient, update_self] at hphase ⊢
      exact htold hne hphase
    · simp only [Waiting.setClient, update_of_ne heq] at hphase ⊢
      exact h.told (hitems hne) hpushes other hphase

/-- A client that neither waits nor is about to is not missed in the queue. -/
theorem Sound.leave (h : st.Sound) {client : Nat} {waiter : Waiter}
    {items : List Bytes} {queue : List Nat}
    (hothers : ∀ other, other ≠ client → other ∈ st.queue → other ∈ queue)
    (hitems : items ≠ [] → st.items ≠ [])
    (hphase : waiter.phase ≠ .subscribed ∧ waiter.phase ≠ .waiting) :
    (({ st with items := items, queue := queue } : Waiting).setClient client waiter).Sound :=
  h.setClient hothers (fun hbusy => absurd hbusy (not_or.mpr hphase)) hitems
    fun _ hwaits => absurd hwaits hphase.2

/-- With one subscriber at most, a notification leaves nobody who waits unnotified. -/
theorem Sound.notify (h : st.Sound) (hone : st.queue.length ≤ 1) {pushes : Nat} :
    ({ st.notify with pushes := pushes } : Waiting).Sound := by
  unfold Waiting.notify
  cases hqueue : st.queue with
  | nil =>
    -- no queue: everyone who waits is notified already
    have hall : ∀ client, (st.clients client).phase = .subscribed ∨
        (st.clients client).phase = .waiting → (st.clients client).notified = true := by
      intro client hphase
      by_contra hnotified
      have hmem := h.queued client hphase (Bool.eq_false_iff.mpr hnotified)
      rw [hqueue] at hmem
      exact not_mem_nil hmem
    refine ⟨fun client hphase hnotified => ?_, fun _ _ client hphase => hall client (.inr hphase)⟩
    rw [hall client hphase] at hnotified
    cases hnotified
  | cons client rest =>
    have hrest : rest = [] := by
      rw [hqueue, length_cons] at hone
      exact eq_nil_of_length_eq_zero (by omega)
    subst hrest
    have hall : ∀ other, ((update st.clients client { st.clients client with notified := true })
        other).phase = .subscribed ∨ ((update st.clients client
        { st.clients client with notified := true }) other).phase = .waiting →
        ((update st.clients client { st.clients client with notified := true })
          other).notified = true := by
      intro other hphase
      by_cases heq : other = client
      · subst heq
        rw [update_self]
      · rw [update_of_ne heq] at hphase ⊢
        by_contra hnotified
        have hmem := h.queued other hphase (Bool.eq_false_iff.mpr hnotified)
        rw [hqueue] at hmem
        exact heq (mem_singleton.mp hmem)
    refine ⟨fun other hphase hnotified => ?_, fun _ _ other hphase => hall other (.inr hphase)⟩
    exact absurd ((hall other hphase).symm.trans hnotified) (by decide)

theorem afterUnsubscribe_idle {before after : WaiterPhase}
    (h : afterUnsubscribe before = some after) : after ≠ .subscribed ∧ after ≠ .waiting := by
  cases before with
  | popped | canceled | woken =>
    cases h
    exact ⟨by decide, by decide⟩
  | _ => cases h

theorem sound_step {st' : Waiting} {move : WaitStep} (h : st.Sound)
    (hone : st.OneSubscriber move) (hstep : st.step move = some st') : st'.Sound := by
  cases move with
  | push left values =>
    by_cases hvalues : values = []
    · rw [step, if_pos hvalues] at hstep
      cases hstep
    · rw [step, if_neg hvalues] at hstep
      cases hstep
      exact ⟨h.queued, fun _ hpushes => absurd hpushes (Nat.succ_ne_zero _)⟩
  | notifyOne =>
    simp only [step] at hstep
    split_ifs at hstep
    cases hstep
    exact h.notify (hone rfl)
  | subscribe client =>
    simp only [step] at hstep
    split_ifs at hstep
    cases hstep
    exact h.setClient (fun _ _ hmem => mem_append_left _ hmem)
      (fun _ _ => mem_append_right _ (mem_singleton_self client)) id
      (fun _ hphase => by cases hphase)
  | leftPop client =>
    simp only [step] at hstep
    split_ifs at hstep with hphase hempty
    · cases hstep
      exact h.setClient (fun _ _ hmem => hmem) (fun _ => h.queued client (.inl hphase)) id
        (fun hne => absurd hempty hne)
    · cases hstep
      have hpopped : WaiterPhase.popped ≠ .subscribed ∧ WaiterPhase.popped ≠ .waiting := by decide
      exact h.leave (fun _ _ hmem => hmem) (fun _ => hempty) hpopped
  | wake client =>
    simp only [step] at hstep
    split_ifs at hstep
    cases hstep
    exact h.leave (fun _ _ hmem => hmem) id ⟨by decide, by decide⟩
  | cancel client =>
    simp only [step] at hstep
    split_ifs at hstep
    cases hstep
    have hcanceled : WaiterPhase.canceled ≠ .subscribed ∧ WaiterPhase.canceled ≠ .waiting := by
      decide
    exact h.leave (fun _ _ hmem => hmem) id hcanceled
  | unsubscribe client =>
    obtain ⟨phase, hphase, rfl⟩ := Option.map_eq_some_iff.mp hstep
    exact h.leave
      (fun other hother hmem => mem_filter.mpr ⟨hmem, decide_eq_true hother⟩) id
      (afterUnsubscribe_idle hphase)

/-- **Nobody sleeps as long as a notification finds one subscriber at most**: whatever the clients
and the pushes do, and in whatever order. -/
theorem nobody_sleeps (items : List Bytes) (moves : List WaitStep)
    (hone : Machine.Heeds step OneSubscriber moves (initial items)) :
    Machine.Always step NoSleeper moves (initial items) := by
  have hsound : Machine.Always step Sound moves (initial items) :=
    Machine.always_of_heeds (fun h hC hstep => sound_step h hC hstep) (sound_initial items) hone
  exact hsound.mono fun st h hsettled hne => h.told hne hsettled.1

/-- A client waits, and two elements are pushed at once. -/
theorem nobody_sleeps_two_elements :
    let moves : List WaitStep := [.subscribe 0, .leftPop 0, .push false [[97], [98]], .notifyOne]
    Machine.Heeds step OneSubscriber moves (initial []) ∧
      Machine.Always step NoSleeper moves (initial []) := by
  intro moves
  have hheeds : Machine.Heeds step OneSubscriber moves (initial []) := by
    intro st hst
    cases hst
    refine ⟨fun h => (by cases h), fun st hst => ?_⟩
    cases hst
    refine ⟨fun h => (by cases h), fun st hst => ?_⟩
    cases hst
    refine ⟨fun h => (by cases h), fun st _ => ⟨fun _ => ?_, trivial⟩⟩
    decide
  exact ⟨hheeds, nobody_sleeps [] moves hheeds⟩

/-- Two clients wait and two elements are pushed at once: the first one wakes up, takes an element and
goes, and the second one is left waiting. -/
def twoWaiters : List WaitStep :=
  [.subscribe 0, .leftPop 0, .subscribe 1, .leftPop 1, .push false [[97], [98]], .notifyOne,
    .wake 0, .unsubscribe 0, .subscribe 0, .leftPop 0, .unsubscribe 0]

theorem second_waiter_sleeps : ¬Machine.Always step NoSleeper twoWaiters (initial []) := by
  intro h
  obtain ⟨st, hrun, hpushes, hitems, hfirst, hsecond, hothers⟩ :
      ∃ st, Machine.run step twoWaiters (initial []) = some st ∧ st.pushes = 0 ∧
        st.items = [[98]] ∧ (st.clients 0).phase = .idle ∧ st.clients 1 = ⟨.waiting, false⟩ ∧
        ∀ client, (st.clients (client + 2)).phase = .idle :=
    ⟨_, rfl, rfl, rfl, rfl, rfl, fun _ => rfl⟩
  have hsettled : st.Settled := by
    refine ⟨hpushes, fun client => ?_⟩
    rcases client with _ | _ | client
    · exact .inl hfirst
    · exact .inr (congrArg Waiter.phase hsecond)
    · exact .inl (hothers client)
  have htold := h.last hrun hsettled (by rw [hitems]; decide) 1 (congrArg Waiter.phase hsecond)
  rw [hsecond] at htold
  cases htold

end Waiting

end Stash
