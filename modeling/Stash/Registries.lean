import Stash.Buckets
import Stash.Executor

/-!
# The registries and the connections

Which clients listen on a channel, watch a key or monitor the server is kept twice: in a registry that
all connections share, and with each connection.  A registry is found by name when a message is
published or a key is touched; the connection's side says what is to be undone when it goes away.

Every call edits both sides under the registry's lock.  Whatever the calls of the clients and their
order, the two sides say the same (`InStep`).  `Disconnect` is several calls, and calls of other
clients may come in between; once it has returned, the client is registered nowhere.
-/

namespace Stash

open GoMap Buckets Function

/-- The registries of a server and the connections that are bound to them. -/
structure Registries where
  /-- `PubSubRegistry.subscribers` -/
  subscribers : Table Bytes Nat
  /-- `WatchRegistry.watchers` -/
  watchers : Table Bytes Nat
  /-- `MonitorRegistry.subscribers` -/
  monitors : Finset Nat
  /-- `MonitorRegistry.subscriberCount` -/
  subscriberCount : Int
  clients : Nat → ClientState

/-- The calls on the registries; a connection's set is drained in the order of an iteration. -/
inductive RegistryCall where
  | subscribe (id : Nat) (channel : Bytes)
  | unsubscribe (id : Nat) (channel : Bytes)
  | unsubscribeAll (id : Nat) (order : MapOrder Bytes)
  | watch (id : Nat) (keys : List Bytes)
  | unwatchAll (id : Nat) (order : MapOrder Bytes)
  | startMonitoring (id : Nat)
  | stopMonitoring (id : Nat)
  | resetTransaction (id : Nat)

namespace RegistryCall

/-- The client of a call. -/
def client : RegistryCall → Nat
  | subscribe id _ | unsubscribe id _ | unsubscribeAll id _ | watch id _ | unwatchAll id _
  | startMonitoring id | stopMonitoring id | resetTransaction id => id

/-- What a call does to its client. -/
def edit : RegistryCall → ClientState → ClientState
  | subscribe _ channel, c => c.subscribeChannel channel
  | unsubscribe _ channel, c => c.unsubscribeChannel channel
  | unsubscribeAll _ _, c => { c with subscribedChannels := [] }
  | watch _ keys, c => c.watchKeys keys
  | unwatchAll _ _, c => c.unwatchAll
  | startMonitoring _, c => { c with monitoring := true }
  | stopMonitoring _, c => { c with monitoring := false }
  | resetTransaction _, c => c.resetTransaction

/-- `Disconnect`, as the calls it consists of. -/
def disconnect (id : Nat) (channels keys : MapOrder Bytes) : List RegistryCall :=
  [resetTransaction id, stopMonitoring id, unsubscribeAll id channels, unwatchAll id keys]

end RegistryCall

namespace Registries

/-- Nobody is registered. -/
def new : Registries :=
  ⟨fun _ => none, fun _ => none, ∅, 0, fun _ => .fresh⟩

/-- The client's side of a call. -/
def editClient (r : Registries) (call : RegistryCall) : Registries :=
  { r with clients := update r.clients call.client (call.edit (r.clients call.client)) }

/-- One call, which holds the lock of its registry. -/
def perform (r : Registries) (call : RegistryCall) : Registries :=
  let edited := r.editClient call
  match call with
  | .subscribe id channel => { edited with subscribers := enter r.subscribers channel id }
  | .unsubscribe id channel => { edited with subscribers := leave r.subscribers channel id }
  | .unsubscribeAll id order =>
    { edited with
      subscribers := leaveAll r.subscribers (order.arrange (r.clients id).subscribedChannels) id }
  | .watch id keys =>
    { edited with watchers := enterAll r.watchers (keys.filter fun key => key ≠ []) id }
  | .unwatchAll id order =>
    { edited with watchers := leaveAll r.watchers (order.arrange (r.clients id).watchedKeys) id }
  | .startMonitoring id =>
    { edited with
      subscriberCount := if id ∈ r.monitors then r.subscriberCount else r.subscriberCount + 1
      monitors := insert id r.monitors }
  | .stopMonitoring id =>
    { edited with
      subscriberCount := if id ∈ r.monitors then r.subscriberCount - 1 else r.subscriberCount
      monitors := r.monitors.erase id }
  | .resetTransaction _ => edited

def run (r : Registries) (calls : List RegistryCall) : Registries :=
  calls.foldl perform r

/-- **Both sides say the same.** -/
structure InStep (r : Registries) : Prop where
  subscribers : ∀ id channel,
    Has r.subscribers channel id ↔ channel ∈ (r.clients id).subscribedChannels
  watchers : ∀ id key, Has r.watchers key id ↔ key ∈ (r.clients id).watchedKeys
  monitors : ∀ id, id ∈ r.monitors ↔ (r.clients id).monitoring = true
  channelsFilled : Filled r.subscribers
  keysFilled : Filled r.watchers
  count : r.subscriberCount = r.monitors.card

/-- The client is registered nowhere. -/
structure Gone (r : Registries) (id : Nat) : Prop where
  subscribers : ∀ channel, ¬Has r.subscribers channel id
  watchers : ∀ key, ¬Has r.watchers key id
  monitors : id ∉ r.monitors

theorem inStep_new : InStep new where
  subscribers _ _ := by simp [Has, new, ClientState.fresh]
  watchers _ _ := by simp [Has, new, ClientState.fresh]
  monitors _ := by simp [new, ClientState.fresh]
  channelsFilled _ := by simp [new]
  keysFilled _ := by simp [new]
  count := rfl

/-! ## One call -/

section Step

variable {r : Registries} {id other : Nat}

theorem clients_perform (r : Registries) (call : RegistryCall) :
    (r.perform call).clients =
      update r.clients call.client (call.edit (r.clients call.client)) := by
  cases call <;> rfl

/-- A table that changed for one client only, next to an edit of that client. -/
theorem mirrors_update (side : ClientState → List Bytes) {t t' : Table Bytes Nat}
    {clients : Nat → ClientState} {edited : ClientState}
    (h : ∀ other name, Has t name other ↔ name ∈ side (clients other))
    (hother : ∀ other name, other ≠ id → (Has t' name other ↔ Has t name other))
    (hid : ∀ name, Has t' name id ↔ name ∈ side edited) (other : Nat) (name : Bytes) :
    Has t' name other ↔ name ∈ side (update clients id edited other) := by
  by_cases heq : other = id
  · subst heq
    rw [update_self]
    exact hid name
  · rw [update_of_ne heq, hother other name heq]
    exact h other name

theorem monitors_update {monitors monitors' : Finset Nat} {clients : Nat → ClientState}
    {edited : ClientState} (h : ∀ other, other ∈ monitors ↔ (clients other).monitoring = true)
    (hother : ∀ other, other ≠ id → (other ∈ monitors' ↔ other ∈ monitors))
    (hid : id ∈ monitors' ↔ edited.monitoring = true) (other : Nat) :
    other ∈ monitors' ↔ (update clients id edited other).monitoring = true := by
  by_cases heq : other = id
  · subst heq
    rwa [update_self]
  · rw [update_of_ne heq, hother other heq]
    exact h other

theorem mem_subscribeChannel {c : ClientState} {channel name : Bytes} :
    name ∈ (c.subscribeChannel channel).subscribedChannels ↔
      name ∈ c.subscribedChannels ∨ name = channel := by
  unfold ClientState.subscribeChannel
  by_cases hmem : channel ∈ c.subscribedChannels
  · rw [if_pos hmem]
    exact (or_iff_left_of_imp fun heq => heq ▸ hmem).symm
  · rw [if_neg hmem]
    simp

/-- **A call keeps both sides in step.** -/
theorem InStep.perform (h : r.InStep) (call : RegistryCall) : (r.perform call).InStep := by
  -- the registries that a call does not touch: the edit leaves that side of the client alone
  have hkept : ∀ (side : ClientState → List Bytes) {t : Table Bytes Nat} {edited : ClientState},
      (∀ other name, Has t name other ↔ name ∈ side (r.clients other)) →
      side edited = side (r.clients call.client) → ∀ other name, Has t name other ↔
      name ∈ side (update r.clients call.client edited other) :=
    fun side _ _ h hedit => mirrors_update side h (fun _ _ _ => Iff.rfl)
      fun name => by rw [hedit]; exact h _ name
  have hchannels {edited} := @hkept ClientState.subscribedChannels _ edited h.subscribers
  have hkeys {edited} := @hkept ClientState.watchedKeys _ edited h.watchers
  have hmonitors : ∀ {edited : ClientState}, edited.monitoring =
      (r.clients call.client).monitoring → ∀ other, other ∈ r.monitors ↔
      (update r.clients call.client edited other).monitoring = true :=
    fun hedit => monitors_update h.monitors (fun _ _ => Iff.rfl) (by rw [hedit]; exact h.monitors _)
  cases call with
  | subscribe id channel =>
    have hedit : ∀ c : ClientState, (c.subscribeChannel channel).watchedKeys = c.watchedKeys ∧
        (c.subscribeChannel channel).monitoring = c.monitoring := by
      intro c
      unfold ClientState.subscribeChannel
      split <;> exact ⟨rfl, rfl⟩
    refine ⟨mirrors_update _ h.subscribers (fun other name hne => ?_) fun name => ?_,
      hkeys (hedit _).1, hmonitors (hedit _).2, h.channelsFilled.enter channel id, h.keysFilled,
      h.count⟩
    · exact has_enter.trans (or_iff_left fun hmem => hne hmem.2)
    · refine has_enter.trans ?_
      rw [h.subscribers]
      exact (or_congr_right (and_iff_left rfl)).trans mem_subscribeChannel.symm
  | unsubscribe id channel =>
    refine ⟨mirrors_update _ h.subscribers (fun other name hne => ?_) fun name => ?_, hkeys rfl,
      hmonitors rfl, h.channelsFilled.leave channel id, h.keysFilled, h.count⟩
    · exact has_leave.trans (and_iff_left fun hmem => hne hmem.2)
    · refine has_leave.trans ?_
      rw [h.subscribers]
      simp [RegistryCall.edit, ClientState.unsubscribeChannel, RegistryCall.client]
  | unsubscribeAll id order =>
    refine ⟨mirrors_update _ h.subscribers (fun other name hne => ?_) fun name => ?_, hkeys rfl,
      hmonitors rfl, h.channelsFilled.leaveAll _ id, h.keysFilled, h.count⟩
    · exact has_leaveAll.trans (and_iff_left fun hmem => hne hmem.2)
    · refine has_leaveAll.trans ?_
      rw [h.subscribers, (order.perm _).mem_iff]
      simp [RegistryCall.edit, RegistryCall.client]
  | watch id keys =>
    refine ⟨hchannels rfl, mirrors_update _ h.watchers (fun other name hne => ?_) fun name => ?_,
      hmonitors rfl, h.channelsFilled, h.keysFilled.enterAll _ id, h.count⟩
    · exact has_enterAll.trans (or_iff_left fun hmem => hne hmem.2)
    · refine has_enterAll.trans ?_
      rw [h.watchers]
      simp only [RegistryCall.edit, ClientState.watchKeys, RegistryCall.client, and_true]
      exact List.mem_append.symm
  | unwatchAll id order =>
    refine ⟨hchannels rfl, mirrors_update _ h.watchers (fun other name hne => ?_) fun name => ?_,
      hmonitors rfl, h.channelsFilled, h.keysFilled.leaveAll _ id, h.count⟩
    · exact has_leaveAll.trans (and_iff_left fun hmem => hne hmem.2)
    · refine has_leaveAll.trans ?_
      rw [h.watchers, (order.perm _).mem_iff]
      simp [RegistryCall.edit, ClientState.unwatchAll, RegistryCall.client]
  | startMonitoring id =>
    refine ⟨hchannels rfl, hkeys rfl, monitors_update h.monitors (fun other hne => ?_) ?_,
      h.channelsFilled, h.keysFilled, ?_⟩
    · exact Finset.mem_insert.trans (or_iff_right hne)
    · exact iff_of_true (Finset.mem_insert_self _ _) rfl
    · have hcount := h.count
      by_cases hmem : id ∈ r.monitors
      · simpa [Registries.perform, hmem, Finset.insert_eq_of_mem hmem] using hcount
      · simpa [Registries.perform, hmem, Finset.card_insert_of_notMem hmem] using hcount
  | stopMonitoring id =>
    refine ⟨hchannels rfl, hkeys rfl, monitors_update h.monitors (fun other hne => ?_) ?_,
      h.channelsFilled, h.keysFilled, ?_⟩
    · exact Finset.mem_erase.trans (and_iff_right hne)
    · exact iff_of_false (Finset.notMem_erase _ _) (by simp [RegistryCall.edit])
    · have hcount := h.count
      by_cases hmem : id ∈ r.monitors
      · have hcard := Finset.card_erase_add_one hmem
        simp only [Registries.perform, if_pos hmem]
        omega
      · simpa [Registries.perform, hmem, Finset.erase_eq_of_notMem hmem] using hcount
  | resetTransaction id =>
    exact ⟨hchannels rfl, hkeys rfl, hmonitors rfl, h.channelsFilled, h.keysFilled, h.count⟩

end Step

/-! ## Any number of calls -/

theorem InStep.run {r : Registries} (h : r.InStep) (calls : List RegistryCall) :
    (r.run calls).InStep := by
  unfold Registries.run
  induction calls generalizing r with
  | nil => exact h
  | cons call calls ih => exact ih (h.perform call)

/-- A client is changed by its own calls, in their order. -/
theorem clients_run (r : Registries) (calls : List RegistryCall) (id : Nat) :
    (r.run calls).clients id =
      (calls.filter fun call => call.client = id).foldl (fun c call => call.edit c)
        (r.clients id) := by
  unfold run
  induction calls generalizing r with
  | nil => rfl
  | cons call calls ih =>
    rw [List.foldl_cons, ih, clients_perform, List.filter_cons]
    by_cases hid : call.client = id
    · subst hid
      rw [update_self, if_pos (by simp), List.foldl_cons]
    · rw [update_of_ne (Ne.symm hid), if_neg (by simpa using hid)]

/-- **The registries mirror the connections**, after any calls in any order; and a client whose only
calls since then were those of `Disconnect` is registered nowhere. -/
theorem registries_mirror_clients (calls : List RegistryCall) :
    (new.run calls).InStep ∧
      ∀ id channels keys later,
        (later.filter fun call => call.client = id) = RegistryCall.disconnect id channels keys →
        ((new.run calls).run later).Gone id := by
  have hcalls := inStep_new.run calls
  refine ⟨hcalls, fun id channels keys later hlater => ?_⟩
  have hend := hcalls.run later
  have hclient := (new.run calls).clients_run later id
  rw [hlater] at hclient
  refine ⟨fun channel hhas => ?_, fun key hhas => ?_, fun hmem => ?_⟩
  · rw [hend.subscribers, hclient] at hhas
    cases hhas
  · rw [hend.watchers, hclient] at hhas
    cases hhas
  · rw [hend.monitors, hclient] at hmem
    cases hmem

/-- One client goes while another one subscribes. -/
theorem registries_mirror_clients_leaving :
    ((new.run [.subscribe 0 [1], .startMonitoring 0]).run
      [.resetTransaction 0, .stopMonitoring 0, .subscribe 1 [1], .unsubscribeAll 0 (.id Bytes),
        .unwatchAll 0 (.id Bytes)]).Gone 0 :=
  (registries_mirror_clients [.subscribe 0 [1], .startMonitoring 0]).2 0 (.id Bytes) (.id Bytes) _ rfl

end Registries

end Stash
