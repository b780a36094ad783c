import Stash.Answers
import Stash.Touches
import Mathlib.Algebra.Order.BigOperators.Group.List

/-!
# Stores that hold the same live entries

Two stores are alike at a moment when the same keys are live with the same logical values and
deadlines.  They may still differ in the encodings, in the access stamps, in how the keys are spread
over shards, in the memory they count, and in the keys past their deadline that they have not
dropped yet.

An operation that both carry out at the same readings of the clock cannot tell them apart
(`StoreOp.simulates`): it answers the same on both, up to an order the program leaves open, and
leaves them alike.  A store with a memory limit takes part as long as the limit is never reached.
-/

namespace Stash

open GoMap List Function Payload

/-! ## What is live later -/

variable {now t : Int} {a b : Keyspace}
    {effect : Option Entry → Except StorageError (Option Entry)}

theorem liveEntry_liveEntry (e : Option Entry) {later : Int} (h : now ≤ later) :
    liveEntry (liveEntry e now) later = liveEntry e later := by
  rcases e with _ | e
  · rfl
  · unfold liveEntry
    rw [Option.filter_some]
    cases hexpired : isExpired e.expiresAt now with
    | false => rfl
    | true =>
      rw [Option.filter_some, isExpired_mono h hexpired]
      rfl

theorem Keyspace.liveAt_later {later : Int} (h : a.liveAt t = b.liveAt t)
    (hle : t ≤ later) : a.liveAt later = b.liveAt later := by
  funext key
  have hkey : liveEntry (a key) t = liveEntry (b key) t := congrFun h key
  change liveEntry (a key) later = liveEntry (b key) later
  rw [← liveEntry_liveEntry (a key) hle, hkey, liveEntry_liveEntry (b key) hle]

/-- What an effect on a key leaves of a keyspace: on an error the live entry. -/
def leftBy (effect : Option Entry → Except StorageError (Option Entry)) (ks : Keyspace)
    (key : Bytes) (now : Int) : Keyspace :=
  update ks key ((effect (liveEntry (ks key) now)).toOption.getD (liveEntry (ks key) now))

theorem leftBy_error {ks : Keyspace} {key : Bytes} {err : StorageError}
    (h : effect (liveEntry (ks key) now) = .error err) (ht : now ≤ t) :
    (leftBy effect ks key now).liveAt t = ks.liveAt t := by
  funext k
  unfold leftBy Keyspace.liveAt
  rw [h]
  by_cases hk : k = key
  · rw [hk, update_self]
    exact liveEntry_liveEntry _ ht
  · rw [update_of_ne hk]

theorem leftBy_ok {ks : Keyspace}
    {key : Bytes} {e : Option Entry} (h : effect (liveEntry (ks key) now) = .ok e) :
    leftBy effect ks key now = update ks key e := by
  unfold leftBy
  rw [h]
  rfl

/-- An effect keeps two keyspaces alike. -/
theorem liveAt_leftBy (h : a.liveAt now = b.liveAt now) (hle : now ≤ t)
    (key : Bytes) : (leftBy effect a key now).liveAt t = (leftBy effect b key now).liveAt t := by
  have hkey : liveEntry (a key) now = liveEntry (b key) now := congrFun h key
  unfold leftBy
  rw [hkey]
  funext k
  unfold Keyspace.liveAt
  by_cases hk : k = key
  · rw [hk, update_self, update_self]
  · rw [update_of_ne hk, update_of_ne hk]
    exact congrFun (Keyspace.liveAt_later h hle) k

/-! ## Sizes -/

theorem approximateSize_nonneg (payload : Payload) : 0 ≤ payload.approximateSize := by
  rcases payload with data | items | rep | value | rep | (members | ints)
  · exact Int.natCast_nonneg _
  · change 0 ≤ (32 : Int) + items.length * 16 + ((items.map List.length).sum : Nat)
    omega
  · change 0 ≤ (32 : Int) + rep.len * 24 + (rep.contentSize : Nat)
    omega
  · simp only [approximateSize]
    omega
  · change 0 ≤ (32 : Int) + rep.len * 24 + (rep.contentSize : Nat)
    omega
  · simp only [approximateSize]
    omega
  · simp only [approximateSize]
    omega

/-- Every key takes room. -/
theorem approximateValueObjectSize_pos (key : Bytes) (value : ValueObject) :
    0 < approximateValueObjectSize key value := by
  have hpayload := approximateSize_nonneg value.payload
  unfold approximateValueObjectSize approximateBaseValueObjectSize
  split <;> omega

namespace Store

theorem usedMemory_recalculate_nonneg (s : Store) (now : Int) (order : MapOrder Bytes) :
    0 ≤ (s.recalculateUsedMemoryLocked now order).usedMemory := by
  refine sum_nonneg fun size hsize => ?_
  obtain ⟨e, -, rfl⟩ := mem_map.mp hsize
  exact (approximateValueObjectSize_pos e.1 e.2).le

/-! ## Writes that find room -/

/-- The write of a key finds room: should it need more bytes, then these and what is measured
together are within the limit. -/
def Roomy {ρ : Type} (s : Store) (key : Bytes) (env : Env) (fn : KeyWrite → WriteAction ρ) : Prop :=
  ∀ value result,
    fn ⟨liveValue (s.lookup key) (env.now 0), env.clock 0, s.maxMemoryEnabled⟩ =
      .commit value result →
    s.maxMemoryEnabled = true →
    0 < approximateValueObjectSize key value -
      sizeOfCurrent key (liveValue (s.lookup key) (env.now 0)) →
    ((s.prepareExistingValueLocked key (env.now 0)).1.recalculateUsedMemoryLocked (env.now 2)
        (env.order 2)).usedMemory +
      (approximateValueObjectSize key value -
        sizeOfCurrent key (liveValue (s.lookup key) (env.now 0))) ≤ s.maxMemory

variable {s : Store} {ρ : Type} {key : Bytes} {env : Env}

theorem roomy_of_plain (hplain : s.maxMemoryEnabled = false) (key : Bytes)
    (env : Env) (fn : KeyWrite → WriteAction ρ) : s.Roomy key env fn := by
  intro value result _ henabled
  rw [hplain] at henabled
  cases henabled

theorem ensureMemory_roomy {s : Store} {delta : Int} {env : Env}
    (h : s.maxMemoryEnabled = true → 0 < delta →
      (s.recalculateUsedMemoryLocked (env.now 0) (env.order 0)).usedMemory + delta ≤ s.maxMemory)
    (protectedKeys : List Bytes) :
    (s.ensureMemoryAvailableLocked delta protectedKeys env).2 = .ok [] := by
  have hnonneg := s.usedMemory_recalculate_nonneg (env.now 0) (env.order 0)
  unfold ensureMemoryAvailableLocked
  simp only
  split
  · rfl
  · rename_i hneeds
    simp only [Bool.or_eq_true, Bool.not_eq_true', decide_eq_true_eq, not_or,
      Bool.not_eq_false] at hneeds
    have hroom := h hneeds.1 (by omega)
    rw [if_neg (by omega), if_pos (by omega)]

variable {fn : KeyWrite → WriteAction ρ}

/-- **A write that finds room answers what its operation decides.** -/
theorem writeKey_roomy (h : s.Roomy key env fn) :
    (s.writeKey key env fn).2 =
      (fn ⟨liveValue (s.lookup key) (env.now 0), env.clock 0, s.maxMemoryEnabled⟩).answer := by
  have hlimit := s.maxMemory_prepare key (env.now 0)
  unfold Roomy at h
  rw [writeKey_eq]
  generalize (s.prepareExistingValueLocked key (env.now 0)).1 = prepared at h hlimit ⊢
  generalize fn ⟨liveValue (s.lookup key) (env.now 0), env.clock 0, s.maxMemoryEnabled⟩ = action
    at h ⊢
  cases action with
  | fail err => rfl
  | inPlace value result => rfl
  | commit value result =>
    have hroom := h value result rfl
    cases haccounting : s.maxMemoryEnabled with
    | false => rfl
    | true =>
      have henabled : prepared.maxMemoryEnabled = s.maxMemoryEnabled :=
        enabled_of_eq hlimit
      have hensure := @ensureMemory_roomy prepared
        (approximateValueObjectSize key value -
          sizeOfCurrent key (liveValue (s.lookup key) (env.now 0))) (env.after 2)
        (fun henabled' hpos => by
          rw [hlimit]
          exact hroom (henabled ▸ henabled') hpos) [key]
      simp only [perform, commit, if_true]
      rcases hresult : prepared.ensureMemoryAvailableLocked
        (approximateValueObjectSize key value -
          sizeOfCurrent key (liveValue (s.lookup key) (env.now 0))) [key] (env.after 2)
        with ⟨s', err | evicted⟩
      · rw [hresult] at hensure
        cases hensure
      · rw [hresult] at hensure
        cases hensure
        rfl

/-- A write that its operation gives up leaves at most a key past its deadline out. -/
theorem writeKey_fail {err : StorageError}
    (h : fn ⟨liveValue (s.lookup key) (env.now 0), env.clock 0, s.maxMemoryEnabled⟩ = .fail err) :
    Fades (env.now 0) s.view (s.writeKey key env fn).1.view := by
  have hprepared := fun k => s.lookup_prepare key k (env.now 0)
  refine @fades_of_liveValue s _ key _ fun k => (Eq.trans ?_ (hprepared k))
  rw [writeKey_eq, h]
  exact lookup_publish_if _ _ _

/-- **A write that finds room does what its effect says**, and drops nothing that is live. -/
theorem writeKey_settles (h : s.Roomy key env fn)
    {effect : Option Entry → Except StorageError (Option Entry)}
    (hfn : ∀ current accounting, (fn ⟨current, env.clock 0, accounting⟩).outcome =
      effect (current.map ValueObject.entry)) {t : Int} (ht : env.DoneBy t) :
    (s.writeKey key env fn).1.view.liveAt t = (leftBy effect s.view key (env.now 0)).liveAt t := by
  have hanswer := writeKey_roomy h
  have houtcome := hfn (liveValue (s.lookup key) (env.now 0)) s.maxMemoryEnabled
  rw [map_entry_liveValue] at houtcome
  change _ = effect (liveEntry (s.view key) (env.now 0)) at houtcome
  -- a write that succeeds spares the other keys
  have hdone : ∀ result, (s.writeKey key env fn).2 = .ok (result, []) →
      (s.writeKey key env fn).1.view.liveAt t =
        (leftBy effect s.view key (env.now 0)).liveAt t := by
    intro result hresult
    obtain ⟨value, hvalue, hlookup, -⟩ := s.writeKey_ok hresult
    rw [houtcome] at hvalue
    rw [leftBy_ok hvalue]
    funext k
    by_cases hk : k = key
    · subst hk
      unfold Keyspace.liveAt
      rw [update_self, view, hlookup]
      rfl
    · have hspares := s.writeKey_spares key env fn hresult hk not_mem_nil
      rw [hspares.liveAt (ht 2)]
      unfold Keyspace.liveAt
      rw [update_of_ne hk]
  cases haction : fn ⟨liveValue (s.lookup key) (env.now 0), env.clock 0, s.maxMemoryEnabled⟩ with
  | fail err =>
    rw [haction] at houtcome
    rw [leftBy_error houtcome.symm (ht 0)]
    exact (writeKey_fail haction).liveAt (ht 0)
  | inPlace value result =>
    rw [haction] at hanswer
    exact hdone result hanswer
  | commit value result =>
    rw [haction] at hanswer
    exact hdone result hanswer

/-- What an operation does on its own it does to what is live. -/
theorem settles_of_acts {effect : Option Entry → Except StorageError (Option Entry)}
    {result : Store × Except StorageError (List Bytes)} (h : Acts s key (env.now 0) effect result)
    {t : Int} (ht : env.DoneBy t) :
    result.1.view.liveAt t = (leftBy effect s.view key (env.now 0)).liveAt t := by
  cases heffect : effect (liveEntry (s.view key) (env.now 0)) with
  | error err =>
    unfold Acts at h
    rw [heffect] at h
    rw [leftBy_error heffect (ht 0)]
    exact h.2.liveAt (ht 0)
  | ok e => rw [leftBy_ok heffect, (h.of_apply heffect).2]

/-! ## The answers of pops, removals and deletions -/

variable (s : Store) (key : Bytes) (env : Env)

/-- What taking from a key answers. -/
theorem shrinkKey_answer (stamp : Int) (absent : ρ)
    (fn : Payload → Except StorageError (Option (Payload × ρ))) :
    (s.shrinkKey key env stamp absent fn).2 =
      (liveValue (s.lookup key) (env.now 0)).elim (.ok absent) fun value =>
        ((fn value.payload).map (Option.map Prod.snd)).map fun r => r.getD absent := by
  unfold shrinkKey
  cases s.lookup key with
  | none => rfl
  | some value =>
    rw [liveValue_some]
    by_cases hexpired : isExpired value.expiresAt (env.now 0) = true
    · simp only [if_pos hexpired, Option.elim_none]
    · simp only [if_neg hexpired, Option.elim_some]
      rcases fn value.payload with err | left | ⟨payload, result⟩
      · rfl
      · rfl
      · by_cases hsound : payload.Sound
        · simp only [dif_pos hsound]
          rfl
        · simp only [dif_neg hsound]
          rfl

theorem delete_answer : (s.delete key env).2 = (liveValue (s.lookup key) (env.now 0)).isSome := by
  unfold delete
  cases s.lookup key with
  | none => rfl
  | some value =>
    rw [liveValue_some]
    cases hexpired : isExpired value.expiresAt (env.now 0) <;> simp [hexpired]

theorem deleteMany_removed (keys : List Bytes) (env : Env) :
    (s.deleteMany keys env).2.Nodup ∧
      ∀ k, k ∈ (s.deleteMany keys env).2 ↔
        k ∈ keys ∧ (liveValue (s.lookup k) (env.now 0)).isSome := by
  rcases keys with _ | ⟨first, _ | ⟨second, rest⟩⟩
  · exact ⟨nodup_nil, by simp [deleteMany]⟩
  · have hdelete := s.delete_answer first env
    change (if (s.delete first env).2 then [first] else []).Nodup ∧
      ∀ k, k ∈ (if (s.delete first env).2 then [first] else []) ↔ _
    rw [hdelete]
    by_cases hlive : (liveValue (s.lookup first) (env.now 0)).isSome = true
    · rw [if_pos hlive]
      refine ⟨nodup_singleton _, fun k => ?_⟩
      rw [mem_singleton]
      exact ⟨fun h => ⟨h, h ▸ hlive⟩, fun h => h.1⟩
    · rw [if_neg hlive]
      refine ⟨nodup_nil, fun k => ?_⟩
      rw [mem_singleton]
      exact ⟨fun h => absurd h not_mem_nil, fun h => absurd (h.1 ▸ h.2) hlive⟩
  · obtain ⟨more, hmore, hnodup, hmem⟩ := deleteLoop_removed (env.now 0)
      (s.groupKeysByShard (first :: second :: rest)) s []
    change (deleteLoop (env.now 0) s _ []).2.Nodup ∧ ∀ k, k ∈ (deleteLoop (env.now 0) s _ []).2 ↔ _
    rw [hmore]
    refine ⟨hnodup, fun k => ?_⟩
    rw [nil_append, hmem, mem_groupKeysByShard]

end Store

/-! ## Operations on stores that are alike -/

/-- The same keys are live, with the same logical values and deadlines. -/
def Store.AlikeAt (t : Int) (s s' : Store) : Prop :=
  s.view.liveAt t = s'.view.liveAt t

namespace Store.AlikeAt

variable {t : Int} {s s' : Store}

section

variable (h : AlikeAt t s s')
include h

theorem values (key : Bytes) :
    ValuesAlike (liveValue (s.lookup key) t) (liveValue (s'.lookup key) t) := by
  refine valuesAlike_of_entry ?_
  rw [map_entry_liveValue, map_entry_liveValue]
  exact congrFun h key

theorem isSome (key : Bytes) :
    (liveValue (s.lookup key) t).isSome = (liveValue (s'.lookup key) t).isSome := by
  have hvalues := h.values key
  generalize liveValue (s.lookup key) t = v at hvalues
  generalize liveValue (s'.lookup key) t = v' at hvalues
  cases hvalues <;> rfl

theorem later {t' : Int} (hle : t ≤ t') : AlikeAt t' s s' :=
  Keyspace.liveAt_later h hle

/-- Keys past their deadline may be dropped on both sides. -/
theorem fades {u u' : Store} {now now' t' : Int} (hle : t ≤ t')
    (hs : Fades now s.view u.view) (hs' : Fades now' s'.view u'.view) (hnow : now ≤ t')
    (hnow' : now' ≤ t') : AlikeAt t' u u' := by
  unfold AlikeAt
  rw [hs.liveAt hnow, hs'.liveAt hnow']
  exact h.later hle

end

end Store.AlikeAt

/-- An operation never finds the memory limit reached. -/
def StoreOp.Fits (op : StoreOp) (s : Store) (env : Env) : Prop :=
  match op with
  | .write key m => ∀ fn, m.plan env = .through fn → s.Roomy key env fn
  | .enforceMaxMemory => s.maxMemoryEnabled = true →
      (s.recalculateUsedMemoryLocked (env.now 0) (env.order 0)).usedMemory ≤ s.maxMemory
  | _ => True

/-- The operations whose answers show live entries only: neither the counts of stored keys nor the
setting of the limit. -/
def StoreOp.Comparable : StoreOp → Prop
  | .len => False
  | .keyStats => False
  | .configureMaxMemory _ _ => False
  | _ => True

namespace Store

variable {s s' : Store} {env env' : Env}

variable {key : Bytes} {m : Mutation} {t : Int}

section

variable (hfits : (StoreOp.write key m).Fits s env)
include hfits

/-- **A write answers the same on stores that are alike.** -/
theorem write_answer (hfits' : (StoreOp.write key m).Fits s' env') (hclock : env.clock = env'.clock)
    (halike : AlikeAt (env.now 0) s s') : (s.write key m env).2 = (s'.write key m env').2 := by
  have hnow : env.now 0 = env'.now 0 := congrArg (fun c => (c 0).millis) hclock
  have hvalues := halike.values key
  have hplans := m.plan_alike env env'
  rw [write_eq_carryOut, write_eq_carryOut]
  simp only [StoreOp.Fits] at hfits hfits'
  generalize m.plan env = plan at hplans hfits ⊢
  generalize m.plan env' = plan' at hplans hfits' ⊢
  cases hplans with
  | refuse err => rfl
  | @through fn fn' h =>
    have hleft := writeKey_roomy (hfits fn rfl)
    have hright := writeKey_roomy (hfits' fn' rfl)
    rw [← hnow, ← hclock] at hright
    exact hleft.trans ((h (env.clock 0) _ _ hvalues).trans hright.symm)
  | @take stamp stamp' absent fn fn' h =>
    unfold carryOut told
    rw [Prod.map_snd, Prod.map_snd, shrinkKey_answer, shrinkKey_answer, ← hnow]
    generalize liveValue (s.lookup key) (env.now 0) = v at hvalues
    generalize liveValue (s'.lookup key) (env.now 0) = v' at hvalues
    cases hvalues with
    | none => rfl
    | some payload deadline =>
      rw [Option.elim_some, Option.elim_some, h payload]
  | delete =>
    unfold carryOut told
    rw [Prod.map_snd, Prod.map_snd, Prod.map_snd, Prod.map_snd, delete_answer, delete_answer,
      ← hnow, halike.isSome key]

/-- A write that finds room evicts nothing. -/
theorem write_quiet : Answer.Same (s.write key m env).2 (s.write key m env).2 := by
  rw [write_eq_carryOut]
  simp only [StoreOp.Fits] at hfits
  cases hplan : m.plan env with
  | refuse err => exact .error err
  | through fn =>
    have hanswer := writeKey_roomy (hfits fn hplan)
    change Answer.Same (s.writeKey key env fn).2 (s.writeKey key env fn).2
    rw [hanswer]
    rcases fn ⟨liveValue (s.lookup key) (env.now 0), env.clock 0, s.maxMemoryEnabled⟩ with
      err | ⟨value, result⟩ | ⟨value, result⟩
    · exact .error err
    · exact .ok (.refl _)
    · exact .ok (.refl _)
  | take stamp absent fn => exact .told _ _
  | delete => exact .ok (.refl _)

/-- **A write that finds room does what its mutation says to what is live.** -/
theorem write_settles (ht : env.DoneBy t) :
    (s.write key m env).1.view.liveAt t =
      (leftBy (m.apply (env.now 0)) s.view key (env.now 0)).liveAt t := by
  have hmeets := m.plan_meets env
  rw [write_eq_carryOut]
  simp only [StoreOp.Fits] at hfits
  generalize m.plan env = plan at hmeets hfits ⊢
  cases hmeets with
  | refuse refuses =>
    rw [leftBy_error (refuses _) (ht 0)]
    rfl
  | @through fn outcome => exact writeKey_settles (hfits fn rfl) outcome ht
  | @take stamp absent fn change taken shrinks =>
    have hacts := acts_shrinkKey s key env stamp absent taken
    have heffect : m.apply (env.now 0) = fun current => shrinkEntry current change :=
      funext shrinks
    rw [heffect]
    exact settles_of_acts hacts ht
  | delete deletes =>
    have heffect : m.apply (env.now 0) = Mutation.delete.apply (env.now 0) := funext deletes
    rw [heffect]
    exact settles_of_acts (acts_delete s key env) ht

end

theorem read_fades (s : Store) (key : Bytes) (q : Query) (env : Env) :
    Fades (env.now 0) s.view (s.read key q env).1.view := by
  cases q with
  | getBit offset =>
    simp only [read, getBit]
    cases validateBitmapOffset offset with
    | error err => exact Fades.refl _ _
    | ok _ => exact s.readKey_fades key env _
  | _ => exact s.readKey_fades key env _

/-- The reads of `PFCount` see the same registers. -/
theorem pfMerge_answer (keys : List Bytes) (merged : Bytes) (hclock : env.clock = env'.clock)
    (halike : AlikeAt (env.now 0) s s') :
    (pfMerge s keys merged env).2 = (pfMerge s' keys merged env').2 := by
  induction keys generalizing s s' merged env env' with
  | nil => rfl
  | cons key keys ih =>
    have hnow : env.now 0 = env'.now 0 := congrArg (fun c => (c 0).millis) hclock
    have hafter : (env.after 2).clock = (env'.after 2).clock :=
      congrArg (fun c i => c (2 + i)) hclock
    -- the next read starts from stores that are alike
    have hnext : ∀ merged, (pfMerge (s.readKey key env _).1 keys merged (env.after 2)).2 =
        (pfMerge (s'.readKey key env' _).1 keys merged (env'.after 2)).2 := fun merged =>
      ih merged hafter (halike.fades (env.now_mono (Nat.zero_le 2))
        (s.readKey_fades key env fun value => (stringValue value).bind hyperLogLogRegisters)
        (s'.readKey_fades key env' fun value => (stringValue value).bind hyperLogLogRegisters)
        (env.now_mono (Nat.zero_le 2)) (hnow ▸ env.now_mono (Nat.zero_le 2)))
    have hread : (s.readKey key env fun value => (stringValue value).bind hyperLogLogRegisters).2 =
        (s'.readKey key env' fun value => (stringValue value).bind hyperLogLogRegisters).2 := by
      have hvalues := halike.values key
      rw [readKey_answer, readKey_answer, ← hnow]
      generalize liveValue (s.lookup key) (env.now 0) = v at hvalues
      generalize liveValue (s'.lookup key) (env.now 0) = v' at hvalues
      cases hvalues with
      | none => rfl
      | some payload deadline => rw [Option.elim_some, Option.elim_some, stringValue_alike payload]
    unfold pfMerge
    generalize (s.readKey key env fun value => (stringValue value).bind hyperLogLogRegisters) =
      left at hread hnext
    generalize (s'.readKey key env' fun value => (stringValue value).bind hyperLogLogRegisters) =
      right at hread hnext
    rcases left with ⟨u, err | registers | registers⟩
    · rcases right with ⟨u', result⟩
      obtain rfl : Except.error err = result := hread
      rfl
    · rcases right with ⟨u', result⟩
      obtain rfl : Except.ok none = result := hread
      exact hnext merged
    · rcases right with ⟨u', result⟩
      obtain rfl : Except.ok (some registers) = result := hread
      exact hnext (mergeRegisters merged registers)

/-! ### Snapshots -/

theorem mem_liveEntries {order : MapOrder Bytes} {now : Int} {value : ValueObject} :
    (key, value) ∈ s.liveEntries now order ↔ liveValue (s.lookup key) now = some value := by
  rw [liveEntries, mem_filter, mem_allEntries, liveValue, Option.filter_eq_some_iff]

theorem nodup_liveEntries (s : Store) (now : Int) (order : MapOrder Bytes) :
    ((s.liveEntries now order).map Prod.fst).Nodup :=
  (s.nodup_allEntries order).sublist (filter_sublist.map Prod.fst)

theorem snapshot_same {p p' : Payload} (h : p.Alike p') (order order' : MapOrder Bytes) :
    (p.snapshot order).Same (p'.snapshot order') := by
  cases h with
  | zset hentries =>
    simp only [snapshot, ZSetRep.len_eq, hentries]
    exact .refl _
  | stream hentries =>
    simp only [snapshot, hentries]
    exact .refl _
  | hash hget => exact .hash (HashRep.perm_entries hget order order')
  | set hcontains => exact .set (SetRep.perm_members hcontains order order')
  | _ => exact .refl _

/-- The live entries of stores that are alike, brought into one order, have the same keys with
values that mean the same. -/
theorem AlikeAt.liveEntries (h : AlikeAt t s s') (order order' : MapOrder Bytes) :
    ∃ between, (s.liveEntries t order).Perm between ∧
      List.Forall₂ (fun e e' : Bytes × ValueObject => e.1 = e'.1 ∧
        ValuesAlike (some e.2) (some e'.2)) between (s'.liveEntries t order') := by
  have hkeys : ((s.liveEntries t order).map Prod.fst).Perm
      ((s'.liveEntries t order').map Prod.fst) := by
    have hmem : ∀ (u : Store) (o : MapOrder Bytes) (key : Bytes),
        key ∈ (u.liveEntries t o).map Prod.fst ↔ (liveValue (u.lookup key) t).isSome := by
      intro u o key
      rw [mem_map, Option.isSome_iff_exists]
      constructor
      · rintro ⟨⟨k, value⟩, hmem, rfl⟩
        exact ⟨value, mem_liveEntries.mp hmem⟩
      · rintro ⟨value, hvalue⟩
        exact ⟨(key, value), mem_liveEntries.mpr hvalue, rfl⟩
    refine (perm_ext_iff_of_nodup (s.nodup_liveEntries t order)
      (s'.nodup_liveEntries t order')).mpr fun key => ?_
    rw [hmem, hmem, h.isSome key]
  -- the entries of the one store, in the order in which the other has their keys
  have hcomp : Relation.Comp (List.Forall₂ fun (e : Bytes × ValueObject) key => e.1 = key)
      List.Perm (s.liveEntries t order) ((s'.liveEntries t order').map Prod.fst) :=
    ⟨(s.liveEntries t order).map Prod.fst, forall₂_map_right_iff.mpr
      (forall₂_same.mpr fun _ _ => rfl), hkeys⟩
  rw [forall₂_comp_perm_eq_perm_comp_forall₂] at hcomp
  obtain ⟨between, hperm, hforall⟩ := hcomp
  refine ⟨between, hperm, ?_⟩
  rw [forall₂_map_right_iff, forall₂_iff_zip] at hforall
  rw [forall₂_iff_zip]
  refine ⟨hforall.1, fun {e e'} hzip => ?_⟩
  obtain ⟨hleft, hright⟩ := of_mem_zip hzip
  have hkey := hforall.2 hzip
  refine ⟨hkey, ?_⟩
  obtain ⟨key, value⟩ := e
  obtain ⟨key', value'⟩ := e'
  obtain rfl : key = key' := hkey
  have hvalues := h.values key
  rw [mem_liveEntries.mp (hperm.mem_iff.mpr hleft), mem_liveEntries.mp hright] at hvalues
  exact hvalues

theorem snapshotAll_same (hclock : env.clock = env'.clock) (halike : AlikeAt (env.now 0) s s') :
    (Datum.snapshot (s.snapshotAll env)).Same (.snapshot (s'.snapshotAll env')) := by
  have hnow : env.now 0 = env'.now 0 := congrArg (fun c => (c 0).millis) hclock
  obtain ⟨between, hperm, hforall⟩ := halike.liveEntries (env.order 0) (env'.order 0)
  unfold snapshotAll
  rw [← hnow]
  refine .snapshot (hperm.map _) ?_
  rw [forall₂_map_left_iff, forall₂_map_right_iff]
  refine hforall.imp fun e e' h => ?_
  obtain ⟨hkey, hvalues⟩ := h
  cases hvalues with
  | some payload deadline => exact ⟨hkey, deadline, snapshot_same payload _ _⟩

/-- Selections that agree on related elements agree on related lists. -/
theorem filterMap_eq_of_forall₂ {α β γ : Type} {R : α → β → Prop} {f : α → Option γ}
    {g : β → Option γ} (h : ∀ a b, R a b → f a = g b) {l : List α} {l' : List β}
    (hl : List.Forall₂ R l l') : l.filterMap f = l'.filterMap g := by
  induction hl with
  | nil => rfl
  | @cons a b l l' hab _ ih => rw [filterMap_cons, filterMap_cons, h a b hab, ih]

theorem snapshotStrings_same (hclock : env.clock = env'.clock) (halike : AlikeAt (env.now 0) s s') :
    (Datum.strings (s.snapshotStrings env)).Same (.strings (s'.snapshotStrings env')) := by
  have hnow : env.now 0 = env'.now 0 := congrArg (fun c => (c 0).millis) hclock
  obtain ⟨between, hperm, hforall⟩ := halike.liveEntries (env.order 0) (env'.order 0)
  rw [hnow] at hforall
  refine .strings ((hperm.filterMap _).trans (List.Perm.of_eq ?_))
  refine filterMap_eq_of_forall₂ ?_ hforall
  rintro ⟨key, p, deadline, _, _⟩ ⟨key', p', deadline', _, _⟩ ⟨hkey, hvalues⟩
  obtain rfl : key = key' := hkey
  cases hvalues with
  | some payload hdeadline =>
    obtain rfl : deadline = deadline' := hdeadline
    cases payload <;> rfl

/-! ### Sweeps -/

/-- **A sweep drops keys past their deadline only.** -/
theorem evictExpiredSample_fades (s : Store) (sampleSize : Nat) (env : Env) :
    Fades (env.now 0) s.view (s.evictExpiredSample sampleSize env).view := by
  intro k
  unfold view evictExpiredSample
  simp only [lookup_publish]
  generalize s.groupKeysByShard _ = keys
  change Option.map _ ((List.foldl deleteKeyLocked s (s.expiredKeys keys (env.now 0))).lookup k) =
    _ ∨ Option.map _ ((List.foldl deleteKeyLocked s (s.expiredKeys keys (env.now 0))).lookup k) =
      none ∧ _
  rw [lookup_foldl_deleteKey]
  by_cases hk : k ∈ s.expiredKeys keys (env.now 0)
  · have hexpired := (mem_filter.mp hk).2
    rw [if_pos hk]
    cases hlookup : s.lookup k with
    | none => exact .inl rfl
    | some value =>
      rw [hlookup] at hexpired
      exact .inr ⟨rfl, value.entry, rfl, hexpired⟩
  · rw [if_neg hk]
    exact .inl rfl

theorem enforce_fits (h : StoreOp.enforceMaxMemory.Fits s env) :
    (s.enforceMaxMemory env).2 = .ok [] ∧
      Fades (env.now 0) s.view (s.enforceMaxMemory env).1.view := by
  unfold enforceMaxMemory
  by_cases henabled : s.maxMemoryEnabled = true
  · have hroom := h henabled
    rw [if_pos henabled]
    simp only [if_pos hroom, true_and]
    intro k
    refine spares_of_live ?_
    rw [lookup_publish, lookup_recalculate]
  · rw [if_neg henabled]
    exact ⟨rfl, Fades.refl _ _⟩

theorem replaceWith_liveAt (s other : Store) (ht : env.DoneBy t) :
    (s.replaceWith other env).view.liveAt t = other.view.liveAt t := by
  have hfades : Fades (env.now 0) other.view (s.replaceWith other env).view := by
    intro k
    have hlookup := s.lookup_replaceWith other env k
    by_cases henabled : s.maxMemoryEnabled = true
    · rw [if_pos henabled] at hlookup
      exact spares_of_live hlookup
    · rw [if_neg henabled] at hlookup
      exact spares_of_lookup _ hlookup
  exact hfades.liveAt (ht 0)

end Store

open Store

/-- **An operation cannot tell stores apart that are alike**: it answers the same, evicts nothing,
and leaves them alike. -/
theorem StoreOp.simulates {op : StoreOp} (hop : op.Comparable) {s s' : Store} {env env' : Env}
    (hfits : op.Fits s env) (hfits' : op.Fits s' env') (hclock : env.clock = env'.clock) {t' : Int}
    (halike : AlikeAt t s s') (hstart : env.StartsAt t) (hdone : env.DoneBy t') :
    Answer.Same (op.run s env).2 (op.run s' env').2 ∧
      AlikeAt t' (op.run s env).1 (op.run s' env').1 := by
  have hnow : ∀ i, env.now i = env'.now i := fun i => congrArg (fun c => (c i).millis) hclock
  have hdone' : env'.DoneBy t' := fun i => hnow i ▸ hdone i
  have hle : t ≤ t' := (hstart 0).trans (hdone 0)
  have hbegin : AlikeAt (env.now 0) s s' := halike.later (hstart 0)
  cases op with
  | write key m =>
    constructor
    · change Answer.Same (s.write key m env).2 (s'.write key m env').2
      rw [← write_answer hfits hfits' hclock hbegin]
      exact write_quiet hfits
    · change (s.write key m env).1.view.liveAt t' = (s'.write key m env').1.view.liveAt t'
      rw [write_settles hfits hdone, write_settles hfits' hdone', ← hnow 0]
      exact liveAt_leftBy hbegin (hdone 0) key
  | read key q =>
    refine ⟨read_same q ?_, halike.fades hle (s.read_fades key q env) (s'.read_fades key q env')
      (hdone 0) (hdone' 0)⟩
    rw [← hnow 0]
    exact hbegin.values key
  | pfCount keys =>
    obtain ⟨hfades, -⟩ := pfMerge_fades keys s (List.replicate hllRegisterCount 0) env hdone
    obtain ⟨hfades', -⟩ := pfMerge_fades keys s' (List.replicate hllRegisterCount 0) env' hdone'
    refine ⟨?_, halike.fades hle hfades hfades' le_rfl le_rfl⟩
    have hanswer := pfMerge_answer keys (List.replicate hllRegisterCount 0) hclock hbegin
    simp only [StoreOp.run, told, Prod.map_snd, Store.pfCount, hanswer]
    exact .told _ _
  | deleteMany keys =>
    obtain ⟨hnodup, hmem⟩ := s.deleteMany_removed keys env
    obtain ⟨hnodup', hmem'⟩ := s'.deleteMany_removed keys env'
    constructor
    · refine .ok (.removed ((perm_ext_iff_of_nodup hnodup hnodup').mpr fun k => ?_))
      rw [hmem, hmem', ← hnow 0, hbegin.isSome k]
    · funext k
      have hkey := congrFun (halike.later hle) k
      unfold Keyspace.liveAt view at hkey ⊢
      change liveEntry (((s.deleteMany keys env).1.lookup k).map _) t' =
        liveEntry (((s'.deleteMany keys env').1.lookup k).map _) t'
      rw [(s.deleteMany_spec keys env).1, (s'.deleteMany_spec keys env').1]
      by_cases hk : k ∈ keys
      · rw [if_pos hk, if_pos hk]
      · rw [if_neg hk, if_neg hk]
        exact hkey
  | snapshotAll => exact ⟨.ok (snapshotAll_same hclock hbegin), halike.later hle⟩
  | snapshotStrings => exact ⟨.ok (snapshotStrings_same hclock hbegin), halike.later hle⟩
  | len => exact absurd hop id
  | keyStats => exact absurd hop id
  | configureMaxMemory limit sampleSize => exact absurd hop id
  | enforceMaxMemory =>
    obtain ⟨hanswer, hfades⟩ := enforce_fits hfits
    obtain ⟨hanswer', hfades'⟩ := enforce_fits hfits'
    refine ⟨?_, halike.fades hle hfades hfades' (hdone 0) (hdone' 0)⟩
    simp only [StoreOp.run, Prod.map_snd, hanswer, hanswer']
    exact .ok (.refl _)
  | evictExpired sampleSize =>
    exact ⟨.ok (.refl _), halike.fades hle (s.evictExpiredSample_fades sampleSize env)
      (s'.evictExpiredSample_fades sampleSize env') (hdone 0) (hdone' 0)⟩
  | replaceWith other =>
    refine ⟨.ok (.refl _), ?_⟩
    change (s.replaceWith other env).view.liveAt t' = (s'.replaceWith other env').view.liveAt t'
    rw [replaceWith_liveAt s other hdone, replaceWith_liveAt s' other hdone']

/-! ## Runs of two stores -/

/-- An operation that two stores carry out at the same readings of the clock, the last of which is
taken by `finished`.  Their maps are iterated in orders of their own. -/
structure CommonStep where
  op : StoreOp
  left : Env
  right : Env
  sameClock : left.clock = right.clock
  finished : Int
  done : left.DoneBy finished

namespace CommonStep

/-- The operations follow one another, and no reading is taken before `t`. -/
def InTime : Int → List CommonStep → Prop
  | _, [] => True
  | t, step :: rest => step.left.StartsAt t ∧ InTime step.finished rest

/-- No operation finds the limit of either store reached. -/
def Fit : List CommonStep → Store → Store → Prop
  | [], _, _ => True
  | step :: rest, s, s' =>
    step.op.Fits s step.left ∧ step.op.Fits s' step.right ∧
      Fit rest (step.op.run s step.left).1 (step.op.run s' step.right).1

/-- The two stores answer every operation the same, and after each of them the same keys are live
with the same logical values and deadlines. -/
def Agree : List CommonStep → Store → Store → Prop
  | [], _, _ => True
  | step :: rest, s, s' =>
    Answer.Same (step.op.run s step.left).2 (step.op.run s' step.right).2 ∧
      AlikeAt step.finished (step.op.run s step.left).1 (step.op.run s' step.right).1 ∧
      Agree rest (step.op.run s step.left).1 (step.op.run s' step.right).1

/-- **Runs of stores that are alike agree**: an induction over the operations. -/
theorem agree_of_alike {steps : List CommonStep} (hsteps : ∀ step ∈ steps, step.op.Comparable)
    {t : Int} (htime : InTime t steps) {s s' : Store} (halike : AlikeAt t s s')
    (hfit : Fit steps s s') : Agree steps s s' := by
  induction steps generalizing t s s' with
  | nil => trivial
  | cons step rest ih =>
    obtain ⟨hstart, hrest⟩ := htime
    obtain ⟨hleft, hright, hfit⟩ := hfit
    obtain ⟨hanswer, hnext⟩ := StoreOp.simulates (hsteps step mem_cons_self) hleft hright
      step.sameClock halike hstart step.done
    exact ⟨hanswer, hnext, ih (fun step hstep => hsteps step (mem_cons_of_mem _ hstep)) hrest
      hnext hfit⟩

end CommonStep

end Stash
