import Stash.Machine
import Stash.StoreAgreement

/-!
# The memory account

While a limit is set the store keeps the sum of the sizes of its values in a counter.  Most
operations adjust the counter by the change in size of one key; writes that need room, and the
operations on the whole store, measure everything again.

Either way the counter stays exact, with one exception: an accounted write sizes the value it
replaces with its first reading of the clock, and measures the store with a later one.  When the key
expires in between, measuring drops it together with its size, and the write then subtracts that
size once more.
-/

namespace Stash

open DecimalText GoMap List StoreOp

namespace Store

/-! ## Sums over the store -/

/-- The sizes of some entries. -/
def sizeSum (entries : List (Bytes × ValueObject)) : Int :=
  (entries.map fun e => approximateValueObjectSize e.1 e.2).sum

theorem sizeSum_perm {entries entries' : List (Bytes × ValueObject)} (h : entries.Perm entries') :
    sizeSum entries = sizeSum entries' :=
  (h.map _).sum_eq

/-- The sum over all stored keys. -/
def storedMemory (s : Store) : Int :=
  sizeSum (s.allEntries (MapOrder.id Bytes))

variable {s s' : Store} {key : Bytes} {keys : List Bytes} {env : Env} {ρ : Type}

/-- Two selections of the same entries have the same size, whatever the orders. -/
theorem sizeSum_filter_congr {order order' : MapOrder Bytes}
    {P P' : Bytes × ValueObject → Bool}
    (h : ∀ key value, (s.lookup key = some value ∧ P (key, value)) ↔
      (s'.lookup key = some value ∧ P' (key, value))) :
    sizeSum ((s.allEntries order).filter P) = sizeSum ((s'.allEntries order').filter P') := by
  refine sizeSum_perm ((perm_ext_iff_of_nodup ((s.nodup_entries order).filter _)
    ((s'.nodup_entries order').filter _)).mpr ?_)
  rintro ⟨key, value⟩
  rw [mem_filter, mem_filter, mem_allEntries, mem_allEntries]
  exact h key value

theorem storedMemory_split (s : Store) (protectedKeys : List Bytes) :
    s.storedMemory = sizeSum ((s.allEntries (MapOrder.id Bytes)).filter
      fun e => decide (e.1 ∈ protectedKeys)) + s.totalEvictableMemoryLocked protectedKeys := by
  have hsplit := filter_append_perm (fun e => decide (e.1 ∈ protectedKeys))
    (s.allEntries (MapOrder.id Bytes))
  have hothers : sizeSum ((s.allEntries (MapOrder.id Bytes)).filter
      fun e => !decide (e.1 ∈ protectedKeys)) = s.totalEvictableMemoryLocked protectedKeys := by
    unfold totalEvictableMemoryLocked
    simp only [decide_not]
    rfl
  rw [storedMemory, ← sizeSum_perm hsplit, ← hothers]
  simp only [sizeSum, map_append, sum_append]

theorem storedMemory_beside (h : ∀ k, k ≠ key → s'.lookup k = s.lookup k) :
    s'.storedMemory = sizeOfCurrent key (s'.lookup key) + s.totalEvictableMemoryLocked [key] := by
  have hown : sizeSum (s'.entryOf key) = sizeOfCurrent key (s'.lookup key) := by
    unfold entryOf
    cases s'.lookup key with
    | none => rfl
    | some value => exact add_zero _
  rw [storedMemory, sizeSum_perm (allEntries_perm h (MapOrder.id Bytes) _), ← hown]
  simp only [sizeSum, map_append, sum_append]
  rfl

theorem storedMemory_eq (s : Store) (key : Bytes) :
    s.storedMemory = sizeOfCurrent key (s.lookup key) + s.totalEvictableMemoryLocked [key] :=
  storedMemory_beside fun _ _ => rfl

/-- **A change of one key changes the sum by its change in size.** -/
theorem storedMemory_update {s s' : Store} {key : Bytes}
    (h : ∀ k, k ≠ key → s'.lookup k = s.lookup k) :
    s'.storedMemory = s.storedMemory - sizeOfCurrent key (s.lookup key) +
      sizeOfCurrent key (s'.lookup key) := by
  rw [s.storedMemory_eq key, storedMemory_beside h]
  omega

theorem storedMemory_congr (h : ∀ k, s'.lookup k = s.lookup k) :
    s'.storedMemory = s.storedMemory := by
  have hupdate := @storedMemory_update s s' [] fun k _ => h k
  rw [h []] at hupdate
  omega

/-! ## The counter -/

/-- The counter is the sum over all stored keys. -/
def Exact (s : Store) : Prop :=
  s.usedMemory = s.storedMemory

@[simp] theorem usedMemory_put (s : Store) (key : Bytes) (value : ValueObject) :
    (s.put key value).usedMemory = s.usedMemory := rfl

@[simp] theorem usedMemory_adjustCount (s : Store) (value : Option ValueObject) (delta : Int) :
    (s.adjustKeyKindCount value delta).usedMemory = s.usedMemory := by
  cases value <;> rfl

@[simp] theorem usedMemory_setKey (s : Store) (key : Bytes) (value : ValueObject) :
    (s.setKeyLocked key value).usedMemory = s.usedMemory := by
  unfold setKeyLocked
  simp only [usedMemory_put]
  split <;> simp

@[simp] theorem usedMemory_removeKey (s : Store) (key : Bytes) :
    (s.removeKeyLocked key).usedMemory = s.usedMemory := by
  change (s.adjustKeyKindCount (s.lookup key) (-1)).usedMemory = _
  exact usedMemory_adjustCount s _ _

@[simp] theorem usedMemory_addUsed (s : Store) (delta : Int) :
    (s.addUsed delta).usedMemory = s.usedMemory + delta := rfl

theorem usedMemory_deleteKeyWithSize (henabled : s.maxMemoryEnabled = true)
    {value : ValueObject} (h : s.lookup key = some value) (size : Int) :
    (s.deleteKeyWithSizeLocked key size).usedMemory = s.usedMemory - size := by
  unfold deleteKeyWithSizeLocked
  rw [h]
  simp only [henabled, if_true, usedMemory_removeKey, usedMemory_addUsed]
  omega

theorem usedMemory_publish (s : Store) : s.publishExpiredKeys.usedMemory = s.usedMemory := by
  unfold publishExpiredKeys
  split <;> rfl

theorem Exact.update (h : s.Exact) (key : Bytes) (hkeys : ∀ k, k ≠ key → s'.lookup k = s.lookup k)
    (hused : s'.usedMemory = s.usedMemory - sizeOfCurrent key (s.lookup key) +
      sizeOfCurrent key (s'.lookup key)) : s'.Exact := by
  unfold Exact at h ⊢
  rw [hused, h, storedMemory_update hkeys]

theorem Exact.congr (h : s.Exact) (hkeys : ∀ k, s'.lookup k = s.lookup k)
    (hused : s'.usedMemory = s.usedMemory) : s'.Exact := by
  unfold Exact at h ⊢
  rw [hused, h, storedMemory_congr hkeys]

theorem Exact.publish (h : s.Exact) : s.publishExpiredKeys.Exact :=
  h.congr (lookup_publish s) s.usedMemory_publish

/-- A limit is set and the counter is exact. -/
structure Counting (s : Store) : Prop where
  enabled : s.maxMemoryEnabled = true
  exact : s.Exact

theorem counting_deletion : KeptByDeletion Counting := by
  intro s key h
  refine ⟨(enabled_of_eq (maxMemory_deleteKey s key)).trans h.enabled, ?_⟩
  unfold deleteKeyLocked
  cases hvalue : s.lookup key with
  | none => exact h.exact
  | some value =>
    simp only [h.enabled, if_true]
    refine h.exact.update key (fun k hk => ?_) ?_
    · rw [lookup_deleteKeyWithSize, if_neg hk]
    · rw [lookup_deleteKeyWithSize, if_pos rfl, hvalue,
        usedMemory_deleteKeyWithSize h.enabled hvalue]
      simp only [sizeOfCurrent]
      omega

theorem Counting.touch (h : s.Counting) {value : ValueObject} (hvalue : s.lookup key = some value)
    (now : Int) : (s.put key (value.touch now)).Counting := by
  refine ⟨h.enabled, h.exact.update key (fun k hk => ?_) ?_⟩
  · rw [lookup_put, if_neg hk]
  · rw [lookup_put, if_pos rfl, usedMemory_put, hvalue]
    change _ = _ - approximateValueObjectSize key value + approximateValueObjectSize key value
    omega

/-- **Measuring makes the counter exact**, whatever it was. -/
theorem exact_recalculate (s : Store) (now : Int) (order : MapOrder Bytes) :
    (s.recalculateUsedMemoryLocked now order).Exact := by
  have hfilter : (s.recalculateUsedMemoryLocked now order).storedMemory =
      sizeSum (((s.recalculateUsedMemoryLocked now order).allEntries (MapOrder.id Bytes)).filter
        fun _ => true) := by
    rw [filter_true]
    rfl
  rw [Exact, hfilter]
  refine sizeSum_filter_congr fun key value => ?_
  rw [lookup_recalculate, liveValue, Option.filter_eq_some_iff]
  simp

theorem counting_recalculate (henabled : s.maxMemoryEnabled = true) (now : Int)
    (order : MapOrder Bytes) : (s.recalculateUsedMemoryLocked now order).Counting :=
  ⟨(enabled_of_eq (s.maxMemory_recalculate now order)).trans henabled,
    s.exact_recalculate now order⟩

theorem Counting.publish (h : s.Counting) : s.publishExpiredKeys.Counting :=
  ⟨(enabled_of_eq s.maxMemory_publish).trans h.enabled, h.exact.publish⟩

/-! ## Writes -/

/-- The key does not expire between the first reading of a write and the measuring of the store. -/
def Steady (s : Store) (key : Bytes) (env : Env) : Prop :=
  ∀ value, s.lookup key = some value → isExpired value.expiresAt (env.now 2) = true →
    isExpired value.expiresAt (env.now 0) = true

theorem Steady.live (h : s.Steady key env) :
    liveValue (liveValue (s.lookup key) (env.now 0)) (env.now 2) =
      liveValue (s.lookup key) (env.now 0) := by
  cases hlookup : s.lookup key with
  | none => rfl
  | some value =>
    rw [liveValue_some]
    split
    · rfl
    · rename_i hlive
      rw [liveValue_some, if_neg (mt (h value hlookup) hlive)]

theorem Exact.commit (h : s.Exact) (henabled : s.maxMemoryEnabled = true) {write : KeyWrite}
    (haccounting : write.accounting = true) (hcurrent : s.lookup key = write.current)
    (hlive : liveValue (s.lookup key) (env.now 0) = s.lookup key) (value : ValueObject) :
    (s.commit key write value env).1.Exact := by
  have hensure := (counting_deletion.ensure ⟨henabled, h⟩
    (approximateValueObjectSize key value - sizeOfCurrent key write.current) [key] env
    (counting_recalculate henabled _ _)).exact
  have hkey := lookup_ensureMemory (mem_singleton_self key) hlive
    (approximateValueObjectSize key value - sizeOfCurrent key write.current)
  unfold Store.commit
  rw [if_pos haccounting]
  simp only
  rcases hresult : s.ensureMemoryAvailableLocked
    (approximateValueObjectSize key value - sizeOfCurrent key write.current) [key] env
    with ⟨s', err | evicted⟩
  · rw [hresult] at hensure
    exact hensure
  · rw [hresult] at hensure hkey
    refine Exact.update hensure key (fun k hk => ?_) ?_
    · rw [lookup_addUsed, lookup_setKey, if_neg hk]
    · change s'.lookup key = _ at hkey
      rw [lookup_addUsed, lookup_setKey, if_pos rfl, usedMemory_addUsed,
        usedMemory_setKey, hkey, hcurrent]
      simp only [sizeOfCurrent]
      omega

/-- While accounting, a value that is changed where it lies keeps its size. -/
def KeepsSize {ρ : Type} (key : Bytes) (fn : KeyWrite → WriteAction ρ) : Prop :=
  ∀ current now value result, fn ⟨current, now, true⟩ = .inPlace value result →
    sizeOfCurrent key current = approximateValueObjectSize key value

variable {fn : KeyWrite → WriteAction ρ}

/-- **An accounted write keeps the counter exact** unless its key expires on the way. -/
theorem Exact.writeKey (h : s.Exact) (henabled : s.maxMemoryEnabled = true)
    (hsteady : s.Steady key env) (hfn : KeepsSize key fn) : (s.writeKey key env fn).1.Exact := by
  obtain ⟨henabled', hprepared⟩ := counting_deletion.prepare ⟨henabled, h⟩ key (env.now 0)
  have hlookup := s.lookup_prepare key key (env.now 0)
  rw [if_pos rfl] at hlookup
  have hlive := hsteady.live
  rw [writeKey_eq, henabled, Prod.map_fst, if_pos rfl]
  refine Exact.publish ?_
  generalize (s.prepareExistingValueLocked key (env.now 0)).1 = prepared at *
  generalize liveValue (s.lookup key) (env.now 0) = current at *
  have hsize := hfn current (env.clock 0)
  generalize fn ⟨current, env.clock 0, true⟩ = action at *
  cases action with
  | fail err => exact hprepared
  | inPlace value result =>
    refine hprepared.update key (fun k hk => ?_) ?_
    · rw [perform, lookup_put, if_neg hk]
    · rw [perform, lookup_put, if_pos rfl, usedMemory_put, hlookup, hsize value result rfl]
      simp only [sizeOfCurrent]
      omega
  | commit value result =>
    have hcommit : (prepared.commit key ⟨current, env.clock 0, true⟩ value (env.after 2)).1.Exact :=
      hprepared.commit henabled' rfl hlookup (hlookup ▸ hlive) value
    unfold perform
    simp only
    rcases hresult : prepared.commit key ⟨current, env.clock 0, true⟩ value (env.after 2)
      with ⟨s', err | evicted⟩
    · rw [hresult] at hcommit
      exact hcommit
    · rw [hresult] at hcommit
      exact hcommit

theorem Exact.shrinkKey (h : s.Exact) (henabled : s.maxMemoryEnabled = true)
    (key : Bytes) (env : Env) (stamp : Int) (absent : ρ)
    (fn : Payload → Except StorageError (Option (Payload × ρ))) :
    (s.shrinkKey key env stamp absent fn).1.Exact := by
  refine (counting_deletion.shrinkKey ⟨henabled, h⟩ key env stamp absent ?_).exact
  intro value payload result hsound hvalue _
  simp only [henabled, if_true]
  refine ⟨henabled, h.update key (fun k hk => ?_) ?_⟩
  · rw [lookup_addUsed, lookup_put, if_neg hk]
  · rw [lookup_addUsed, lookup_put, if_pos rfl, usedMemory_addUsed, usedMemory_put, hvalue]
    simp only [sizeOfCurrent]
    omega

/-! ### Values that are changed where they lie -/

theorem length_updateHyperLogLogRegisters (registers : Bytes) (elements : List Bytes) :
    (updateHyperLogLogRegisters registers elements).1.length = registers.length := by
  unfold updateHyperLogLogRegisters
  generalize false = changed
  induction elements generalizing registers changed with
  | nil => rfl
  | cons element elements ih =>
    rw [foldl_cons]
    simp only
    split
    · split
      · rw [ih, length_set]
      · exact ih registers changed
    · exact ih registers changed

theorem length_pfAddExisting {data : Bytes} {elements : List Bytes} {updated : Bytes}
    {changed : Bool}
    (h : pfAddExisting data elements = .ok (updated, changed)) : updated.length = data.length := by
  obtain ⟨registers, hregisters, hupdated⟩ := bind_ok h
  have hlength := length_updateHyperLogLogRegisters registers elements
  rcases hupdate : updateHyperLogLogRegisters registers elements with ⟨grown, changed'⟩
  rw [hupdate] at hupdated hlength
  obtain ⟨rfl, -⟩ := Prod.mk.inj (Except.ok.inj hupdated)
  have hsplit : registers = data.drop hllHeaderSize := by
    unfold hyperLogLogRegisters at hregisters
    split at hregisters
    · cases hregisters
    · split at hregisters
      · cases hregisters
      · exact (Except.ok.inj hregisters).symm
  change grown.length = registers.length at hlength
  rw [length_append, hlength, hsplit, ← length_append, take_append_drop]

theorem keepsSize_map
    (h : KeepsSize key fn) (datum : ρ → Datum) : KeepsSize key fun write => (fn write).map datum := by
  intro current now value result hvalue
  change (fn ⟨current, now, true⟩).map datum = .inPlace value result at hvalue
  cases haction : fn ⟨current, now, true⟩ with
  | fail err =>
    rw [haction] at hvalue
    cases hvalue
  | inPlace value' result' =>
    rw [haction] at hvalue
    cases hvalue
    exact h current now _ _ haction
  | commit value' result' =>
    rw [haction] at hvalue
    cases hvalue

theorem keepsSize_of_never
    (h : ∀ current now value result, fn ⟨current, now, true⟩ ≠ .inPlace value result) :
    KeepsSize key fn :=
  fun current now value result hvalue => absurd hvalue (h current now value result)

theorem keepsSize_incrementAction (key : Bytes) (stamp : Int) :
    KeepsSize key (incrementAction stamp) := by
  refine keepsSize_of_never ?_
  rintro (_ | ⟨data | items | rep | stream | rep | rep, _, _, _⟩) now value result h
  · cases h
  · simp only [incrementAction] at h
    split at h <;> cases h
  all_goals cases h

theorem keepsSize_setBitAction (key : Bytes) (offset bit : Int) :
    KeepsSize key (setBitAction offset bit) := by
  refine keepsSize_of_never ?_
  rintro (_ | ⟨data | items | rep | stream | rep | rep, _, _, _⟩) now value result h
  · cases h
  · simp only [setBitAction, Bool.not_true, Bool.and_false, Bool.false_eq_true, if_false] at h
    cases h
  all_goals cases h

theorem keepsSize_pfAddAction (key : Bytes) (elements : List Bytes) :
    KeepsSize key (pfAddAction elements) := by
  rintro (_ | ⟨data | items | rep | stream | rep | rep, expiresAt, _, _⟩) now value result h
  · cases h
  · simp only [pfAddAction] at h
    rcases hadd : pfAddExisting data elements with err | ⟨updated, changed⟩
    · rw [hadd] at h
      cases h
    · rw [hadd] at h
      cases h
      have hlength := length_pfAddExisting hadd
      change approximateBaseValueObjectSize key expiresAt + (data.length : Int) =
        approximateBaseValueObjectSize key expiresAt + (updated.length : Int)
      rw [hlength]
  all_goals cases h

theorem keepsSize_xAddAction (key rawID : Bytes) (values : List Bytes)
    (hvalues : Payload.PairedValues values) : KeepsSize key (xAddAction rawID values hvalues) := by
  refine keepsSize_of_never ?_
  rintro (_ | ⟨data | items | rep | stream | rep | rep, _, _, hsound⟩) now value result h
  · simp only [xAddAction] at h
    cases hadd : streamPayload .empty (fun _ h => by cases h) rawID values hvalues now <;>
      (rw [hadd] at h; cases h)
  · cases h
  · cases h
  · cases h
  · simp only [xAddAction, stream.clone_eq, ite_self] at h
    cases hadd : streamPayload stream hsound.2 rawID values hvalues now <;>
      (rw [hadd] at h; cases h)
  · cases h
  · cases h

/-- **No write changes a size in place while accounting.** -/
theorem keepsSize_plan {m : Mutation} {fn : KeyWrite → WriteAction Datum}
    (h : m.plan env = .through fn) (key : Bytes) : KeepsSize key fn := by
  have hcommits : ∀ {ρ : Type} {action : KeyWrite → WriteAction ρ} (datum : ρ → Datum),
      KeepsSize key action → Plan.writing datum action = .through fn → KeepsSize key fn := by
    intro ρ action datum hkeeps hplan
    cases hplan
    exact keepsSize_map hkeeps datum
  cases m
  case set value expiresAt =>
    refine hcommits (fun _ => .done) ?_ h
    refine keepsSize_of_never fun current now value' result hset => ?_
    cases hset
  case increment => exact hcommits _ (keepsSize_incrementAction key _) h
  case setBit offset bit =>
    unfold Mutation.plan at h
    simp only at h
    split at h
    · cases h
    · exact hcommits _ (keepsSize_setBitAction key offset bit) h
  case pfAdd elements => exact hcommits _ (keepsSize_pfAddAction key elements) h
  case pop | delete => cases h
  case popN | hDel | sRem =>
    unfold Mutation.plan at h
    simp only at h
    split at h <;> cases h
  case push | zAdd | hSet | sAdd =>
    unfold Mutation.plan at h
    simp only at h
    split at h
    · cases h
    · refine hcommits _ (keepsSize_of_never ?_) h
      rintro (_ | ⟨data | items | rep | stream | rep | rep, _, _, _⟩) now value result hset <;>
        cases hset
  case xAdd rawID values =>
    unfold Mutation.plan at h
    simp only at h
    split at h
    · exact hcommits _ (keepsSize_xAddAction key rawID values _) h
    · cases h

end Store

/-! ## Runs -/

/-- What the account promises: the counter is the sum over all stored keys, is never negative, and
is zero without keys. -/
structure Store.Accounted (s : Store) : Prop where
  exact : s.usedMemory = s.storedMemory
  nonneg : 0 ≤ s.usedMemory
  empty : (∀ key, s.lookup key = none) → s.usedMemory = 0

theorem Store.Exact.accounted {s : Store} (h : s.Exact) : s.Accounted := by
  refine ⟨h, ?_, fun hnone => ?_⟩
  · rw [h]
    refine sum_nonneg fun size hsize => ?_
    obtain ⟨e, -, rfl⟩ := mem_map.mp hsize
    exact (approximateValueObjectSize_pos e.1 e.2).le
  · rw [h, storedMemory]
    have hnil : s.allEntries (MapOrder.id Bytes) = [] := by
      refine eq_nil_iff_forall_not_mem.mpr ?_
      rintro ⟨key, value⟩ hmem
      rw [mem_allEntries, hnone key] at hmem
      cases hmem
    rw [hnil]
    rfl

/-- One operation as a step of the store. -/
def StoreOp.step (s : Store) (i : StoreOp × Env) : Option Store :=
  some (i.1.run s i.2).1

/-- The accounting is not switched off, and no write through `writeKey` has its key expire between
its first reading of the clock and the measuring of the store. -/
def StoreOp.Accountable (s : Store) (i : StoreOp × Env) : Prop :=
  match i.1 with
  | .write key m => ∀ fn, m.plan i.2 = .through fn → s.Steady key i.2
  | .configureMaxMemory limit _ => 0 < limit
  | _ => True

namespace Store

theorem counting_configure (s : Store) {limit : Int} (hlimit : 0 < limit)
    (sampleSize : Int) (env : Env) : (s.configureMaxMemory limit sampleSize env).Counting := by
  unfold configureMaxMemory
  simp only [if_pos hlimit]
  refine ⟨?_, Exact.publish (exact_recalculate _ _ _)⟩
  unfold maxMemoryEnabled
  rw [maxMemory_publish, maxMemory_recalculate]
  simp only [decide_eq_true_eq]
  omega

variable {s : Store}

theorem Counting.write (h : s.Counting) {key : Bytes} {m : Mutation} {env : Env}
    (hsteady : ∀ fn, m.plan env = .through fn → s.Steady key env) :
    (s.write key m env).1.Exact := by
  rw [write_eq_carryOut]
  cases hplan : m.plan env with
  | refuse err => exact h.exact
  | through fn => exact h.exact.writeKey h.enabled (hsteady fn hplan) (keepsSize_plan hplan key)
  | take stamp absent fn => exact h.exact.shrinkKey h.enabled key env stamp absent fn
  | delete => exact (counting_deletion.delete h key env).exact

/-- **Every accountable operation keeps the counter exact.** -/
theorem Counting.step {s' : Store} {i : StoreOp × Env} (h : s.Counting)
    (hi : StoreOp.Accountable s i) (hstep : step s i = some s') : s'.Counting := by
  obtain ⟨op, env⟩ := i
  cases hstep
  have henabled : op.Comparable → (op.run s env).1.maxMemoryEnabled = true := by
    intro hop
    rw [enabled_of_eq (maxMemory_run hop s env)]
    exact h.enabled
  cases op with
  | write key m => exact ⟨henabled trivial, h.write hi⟩
  | read key q => exact counting_deletion.read h key q env fun _ hvalue => h.touch hvalue _
  | pfCount keys => exact counting_deletion.pfMerge h _ _ fun _ h hvalue => h.touch hvalue _
  | deleteMany keys => exact counting_deletion.deleteMany h keys env
  | snapshotAll | snapshotStrings | len | keyStats => exact h
  | configureMaxMemory limit sampleSize =>
    exact s.counting_configure hi sampleSize env
  | enforceMaxMemory =>
    exact counting_deletion.enforceMaxMemory h env (counting_recalculate h.enabled _ _)
      fun _ => Counting.publish
  | evictExpired sampleSize =>
    refine ⟨henabled trivial, Exact.publish ?_⟩
    exact (counting_deletion.foldl h).exact.congr (fun _ => rfl) rfl
  | replaceWith other =>
    refine ⟨henabled trivial, ?_⟩
    change (s.replaceWith other env).Exact
    unfold Store.replaceWith
    simp only [h.enabled, if_true]
    exact Exact.publish (exact_recalculate _ _ _)

end Store

/-- **The memory account is exact**: after a limit was set it is the sum over all stored keys in every
state, as long as the accounting stays on and no accounted write has its key expire between the
readings of the clock. -/
theorem memory_accounted (s : Store) {limit : Int} (hlimit : 0 < limit) (sampleSize : Int)
    (env : Env)
    {steps : List (StoreOp × Env)}
    (h : Machine.Heeds step StoreOp.Accountable steps
      (s.configureMaxMemory limit sampleSize env)) :
    Machine.Always step Store.Accounted steps
      (s.configureMaxMemory limit sampleSize env) :=
  (Machine.always_of_heeds Store.Counting.step (s.counting_configure hlimit sampleSize env)
    h).mono fun _ hcounting => hcounting.exact.accounted

theorem memory_accounted_overwrite :
    Machine.Always step Store.Accounted
      [(.write (ascii "a") (.set (ascii "x") 1000), .frozen (momentAt 500)),
        (.write (ascii "a") (.set (ascii "a longer value") 0), .frozen (momentAt 1001))]
      ((Store.newStore fun _ => 0).configureMaxMemory 1000000 20 (.frozen (momentAt 0))) := by
  refine memory_accounted _ (by decide) 20 _ ?_
  rintro s - 
  refine ⟨fun _ _ _ _ hexpired => hexpired, ?_⟩
  rintro s -
  exact ⟨fun _ _ _ _ hexpired => hexpired, trivial⟩

/-- The clock moves on after the second reading. -/
def tickingEnv (first later : Instant) (h : first ≤ later) : Env where
  clock i := if i < 2 then first else later
  monotone := by
    intro i j hij
    by_cases hj : j < 2
    · simp only [if_pos (show i < 2 by omega), if_pos hj]
      exact le_rfl
    · by_cases hi : i < 2
      · simp only [if_pos hi, if_neg hj]
        exact h
      · simp only [if_neg hi, if_neg hj]
        exact le_rfl
  order _ := MapOrder.id Bytes

/-- **The counter becomes negative**: a key is overwritten by a larger value, and expires after the
first reading of that write.  Once the key is deleted, nothing is stored and the counter is at
`-58`. -/
theorem counter_negative :
    ((Machine.run step
      [(.configureMaxMemory 1000000 20, .frozen (momentAt 0)),
        (.write (ascii "a") (.set (ascii "x") 1000), .frozen (momentAt 500)),
        (.write (ascii "a") (.set (ascii "a longer value") 0),
          tickingEnv (momentAt 1000) (momentAt 1001) (by decide)),
        (.write (ascii "a") .delete, .frozen (momentAt 1002))]
      (.newStore fun _ => 0)).map fun s => (s.usedMemory, s.storedMemory)) = some (-58, 0) := by
  decide +kernel

end Stash
