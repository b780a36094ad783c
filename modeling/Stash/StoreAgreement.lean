import Stash.StoreSimulation

/-!
# What a client cannot see

Consequences of the simulation.  Keys past their deadline stay in the store until something
comes across them; whether they are still there does not show in any answer but the counts of
stored keys.  And the operations have two bodies, one that edits a value where it lies and one that
sizes a copy and commits it; which of them runs does not show either, as long as the limit is never
reached.
-/

namespace Stash

open DecimalText Store CommonStep List StoreOp

/-! ## The limit stays -/

namespace Store

theorem maxMemory_enforce (s : Store) (env : Env) :
    (s.enforceMaxMemory env).1.maxMemory = s.maxMemory := by
  unfold enforceMaxMemory evictUntilMemoryAtOrBelowLocked
  simp only
  split
  · rw [maxMemory_publish]
    split
    · exact maxMemory_recalculate s _ _
    · have hevict := (evictLoop_spec [] s.maxMemory
        (s.recalculateUsedMemoryLocked (env.now 0) (env.order 0)).totalKeyCountLocked
        (s.recalculateUsedMemoryLocked (env.now 0) (env.order 0)) (env.after 1)).1.limit
      split <;> exact hevict.trans (maxMemory_recalculate s _ _)
  · rfl

theorem lookup_configure (s : Store) (limit sampleSize : Int) (env : Env) (k : Bytes) :
    (s.configureMaxMemory limit sampleSize env).lookup k =
      if 0 < limit then liveValue (s.lookup k) (env.now 0) else s.lookup k := by
  unfold configureMaxMemory
  simp only [lookup_publish]
  split
  · rw [lookup_recalculate]
    rfl
  · rfl

theorem maxMemory_replaceWith (s other : Store) (env : Env) :
    (s.replaceWith other env).maxMemory = s.maxMemory := by
  unfold replaceWith
  simp only [maxMemory_publish]
  split
  · rw [maxMemory_recalculate]
  · rfl

end Store

/-- Only `ConfigureMaxMemory` changes the limit. -/
theorem StoreOp.maxMemory_run {op : StoreOp} (hop : op.Comparable) (s : Store) (env : Env) :
    (op.run s env).1.maxMemory = s.maxMemory := by
  cases op with
  | write key m => exact (s.mutate_spec key m env).1
  | read key q => exact (keptByDeletion_maxMemory _).read rfl key q env fun _ _ => rfl
  | pfCount keys => exact (pfMerge_fades keys s _ env fun i => (env.clock i).millis_le).2
  | deleteMany keys => exact (s.deleteMany_spec keys env).2
  | snapshotAll => rfl
  | snapshotStrings => rfl
  | len => rfl
  | keyStats => rfl
  | configureMaxMemory limit sampleSize => exact absurd hop id
  | enforceMaxMemory => exact s.maxMemory_enforce env
  | evictExpired sampleSize =>
    simp only [run, evictExpiredSample, maxMemory_publish]
    exact (keptByDeletion_maxMemory s.maxMemory).foldl rfl
  | replaceWith other => exact s.maxMemory_replaceWith other env

theorem StoreOp.fits_of_plain {s : Store} (hplain : s.maxMemoryEnabled = false) (op : StoreOp)
    (env : Env) : op.Fits s env := by
  cases op with
  | write key m => exact fun fn _ => roomy_of_plain hplain key env fn
  | enforceMaxMemory =>
    intro henabled
    rw [hplain] at henabled
    cases henabled
  | _ => trivial

/-! ## Lazy expiry -/

/-- `b` is `a` without some of the keys that have expired at `t`. -/
def Store.PurgedAt (t : Int) (a b : Store) : Prop :=
  ∀ key, b.lookup key = a.lookup key ∨
    b.lookup key = none ∧ ∃ value, a.lookup key = some value ∧ isExpired value.expiresAt t = true

theorem Store.PurgedAt.alike {t : Int} {a b : Store} (h : PurgedAt t a b) : AlikeAt t a b := by
  have hfades : Fades t a.view b.view := by
    intro key
    rcases h key with hkey | ⟨hkey, value, hvalue, hexpired⟩
    · exact spares_of_lookup _ hkey
    · refine .inr ⟨?_, value.entry, ?_, hexpired⟩
      · unfold view
        rw [hkey]
        rfl
      · unfold view
        rw [hvalue]
        rfl
  exact (hfades.liveAt le_rfl).symm

/-- Without limits every operation fits, on both sides. -/
theorem CommonStep.fit_of_plain {steps : List CommonStep}
    (hsteps : ∀ step ∈ steps, step.op.Comparable) {a b : Store}
    (ha : a.maxMemoryEnabled = false) (hb : b.maxMemoryEnabled = false) : Fit steps a b := by
  induction steps generalizing a b with
  | nil => trivial
  | cons step rest ih =>
    have hop := hsteps step mem_cons_self
    refine ⟨fits_of_plain ha _ _, fits_of_plain hb _ _, ih ?_ ?_ ?_⟩
    · exact fun step hstep => hsteps step (mem_cons_of_mem _ hstep)
    · rw [enabled_of_eq (maxMemory_run hop a step.left)]
      exact ha
    · rw [enabled_of_eq (maxMemory_run hop b step.right)]
      exact hb

/-- **Lazy expiry is invisible.**  A store without a limit, and the same store from which some keys
past their deadline have been removed, answer all operations the same, and after each of them they
differ in expired keys only. -/
theorem lazy_expiry_invisible {a b : Store} (ha : a.maxMemoryEnabled = false)
    (hb : b.maxMemoryEnabled = false) {t : Int} (hpurged : a.PurgedAt t b)
    {steps : List CommonStep} (hsteps : ∀ step ∈ steps, step.op.Comparable)
    (htime : InTime t steps) : CommonStep.Agree steps a b :=
  agree_of_alike hsteps htime hpurged.alike (fit_of_plain hsteps ha hb)

/-- A step at one moment. -/
def CommonStep.sudden (t : Instant) (op : StoreOp) : CommonStep where
  op := op
  left := .frozen t
  right := .frozen t
  sameClock := rfl
  finished := t.millis
  done := fun _ => le_rfl

theorem CommonStep.startsAt_sudden {t : Int} {moment : Instant} (h : t ≤ moment.millis)
    (op : StoreOp) : (CommonStep.sudden moment op).left.StartsAt t :=
  fun _ => h

instance neZeroMoments : NeZero 10000 :=
  ⟨by decide⟩

/-- The moment of a number of milliseconds. -/
def momentAt (ms : Fin 10000) : Instant :=
  .ofMillis ms (by omega)

/-- A store with one key, whose time is over at 1000. -/
def agedStore : Store :=
  ((write (ascii "a") (.set (ascii "x") 1000)).run (.newStore fun _ => 0)
    (.frozen (momentAt 500))).1

theorem purgedAt_agedStore : agedStore.PurgedAt 2000 (.newStore fun _ => 0) := by
  intro key
  have hlookup := (@writeKey_plain _ (.newStore fun _ => 0) rfl (ascii "a")
    (.frozen (momentAt 500)) (setAction (ascii "x") 1000 500)).2 key
  change agedStore.lookup key = _ at hlookup
  rw [hlookup]
  by_cases hkey : key = ascii "a"
  · rw [if_pos hkey]
    exact .inr ⟨rfl, _, rfl, by decide⟩
  · rw [if_neg hkey]
    exact .inl rfl

theorem lazy_expiry_invisible_aged :
    CommonStep.Agree [.sudden (momentAt 2000) (.read (ascii "a") .get),
        .sudden (momentAt 3000) (.write (ascii "a") (.push true [ascii "y"]))]
      agedStore (.newStore fun _ => 0) := by
  refine lazy_expiry_invisible rfl rfl purgedAt_agedStore ?_
    ⟨startsAt_sudden (by decide) _, startsAt_sudden (by decide) _, trivial⟩
  intro step hstep
  simp only [mem_cons, not_mem_nil, or_false] at hstep
  rcases hstep with rfl | rfl <;> trivial

/-! ## Accounting -/

/-- No operation finds the limit reached. -/
def StoreOp.NeverReached : List (StoreOp × Env) → Store → Prop
  | [], _ => True
  | step :: rest, s => step.1.Fits s step.2 ∧ NeverReached rest (step.1.run s step.2).1

theorem CommonStep.fit_of_neverReached {steps : List CommonStep}
    (hsteps : ∀ step ∈ steps, step.op.Comparable) {plain limited : Store}
    (hplain : plain.maxMemoryEnabled = false)
    (hlimited : StoreOp.NeverReached (steps.map fun step => (step.op, step.right)) limited) :
    Fit steps plain limited := by
  induction steps generalizing plain limited with
  | nil => trivial
  | cons step rest ih =>
    have hop := hsteps step mem_cons_self
    refine ⟨fits_of_plain hplain _ _, hlimited.1, ih ?_ ?_ hlimited.2⟩
    · exact fun step hstep => hsteps step (mem_cons_of_mem _ hstep)
    · rw [enabled_of_eq (maxMemory_run hop plain step.left)]
      exact hplain

/-- **Accounted and unaccounted operations agree.**  A store without a limit and one whose limit is
never reached answer all operations the same, evict nothing, and after each operation hold the same
live keys with the same logical values and deadlines. -/
theorem accounting_invisible {plain limited : Store} (hplain : plain.maxMemoryEnabled = false)
    {t : Int} (halike : AlikeAt t plain limited) {steps : List CommonStep}
    (hsteps : ∀ step ∈ steps, step.op.Comparable) (htime : InTime t steps)
    (hlimited : StoreOp.NeverReached (steps.map fun step => (step.op, step.right)) limited) :
    CommonStep.Agree steps plain limited :=
  agree_of_alike hsteps htime halike (fit_of_neverReached hsteps hplain hlimited)

/-- A store with a limit of a million bytes. -/
def roomyStore : Store :=
  (Store.newStore fun _ => 0).configureMaxMemory 1000000 20 (.frozen (momentAt 0))

theorem alikeAt_roomyStore : AlikeAt 0 (.newStore fun _ => 0) roomyStore := by
  have hlookup : ∀ key, roomyStore.lookup key = none := by
    intro key
    rw [roomyStore, lookup_configure]
    rfl
  funext key
  unfold Keyspace.liveAt view
  rw [hlookup]
  rfl

/-- A key with a deadline, another key after that deadline, and a last operation. -/
def agingSteps (last : StoreOp) : List CommonStep :=
  [.sudden (momentAt 500) (.write (ascii "a") (.set (ascii "x") 1000)),
    .sudden (momentAt 2000) (.write (ascii "b") (.set (ascii "y") 0)), .sudden (momentAt 2000) last]

theorem inTime_agingSteps (last : StoreOp) : InTime 0 (agingSteps last) :=
  ⟨startsAt_sudden (by decide) _, startsAt_sudden (by decide) _, startsAt_sudden (by decide) _,
    trivial⟩

theorem neverReached_agingSteps {last : StoreOp} (hlast : ∀ s env, last.Fits s env) :
    StoreOp.NeverReached ((agingSteps last).map fun step => (step.op, step.right)) roomyStore := by
  refine ⟨fun fn hfn value result hvalue _ _ => ?_, fun fn hfn value result hvalue _ _ => ?_,
    hlast _ _, trivial⟩
  · cases hfn
    cases hvalue
    decide +kernel
  · cases hfn
    cases hvalue
    decide +kernel

theorem accounting_invisible_roomy :
    CommonStep.Agree (agingSteps (.read (ascii "b") .get)) (.newStore fun _ => 0) roomyStore := by
  refine accounting_invisible rfl alikeAt_roomyStore ?_ (inTime_agingSteps _)
    (neverReached_agingSteps fun _ _ => trivial)
  intro step hstep
  simp only [agingSteps, mem_cons, not_mem_nil, or_false] at hstep
  rcases hstep with rfl | rfl | rfl <;> trivial

/-- **The count of stored keys shows the limit**: measuring for a write sweeps the expired key that
a store without a limit still counts. -/
theorem len_shows_limit :
    (Store.newStore fun _ => 0).maxMemoryEnabled = false ∧
      AlikeAt 0 (.newStore fun _ => 0) roomyStore ∧ InTime 0 (agingSteps .len) ∧
      StoreOp.NeverReached ((agingSteps .len).map fun step => (step.op, step.right)) roomyStore ∧
      ¬CommonStep.Agree (agingSteps .len) (.newStore fun _ => 0) roomyStore := by
  refine ⟨rfl, alikeAt_roomyStore, inTime_agingSteps _,
    neverReached_agingSteps fun _ _ => trivial, ?_⟩
  rintro ⟨-, -, -, -, hlen, -⟩
  have hcounts : ∀ {m n : Nat}, Answer.Same (.ok (.size m, [])) (.ok (.size n, [])) → m = n := by
    intro m n h
    cases h with
    | ok hsame => cases hsame; rfl
  exact absurd (hcounts hlen) (by decide +kernel)

end Stash
