import Mathlib.Data.Option.Basic

/-!
# Runs of a machine

A machine takes steps from state to state; a step that cannot be taken ends the run.  A property of
states holds *always* when it holds in every state a run comes to, and a run *heeds* a condition
when every step it takes meets it.  Invariants are proved from what one step does.
-/

namespace Machine

variable {σ ι : Type} (step : σ → ι → Option σ)

/-- The property holds in every state the run comes to, the first one included. -/
def Always (P : σ → Prop) : List ι → σ → Prop
  | [], s => P s
  | i :: rest, s => P s ∧ ∀ s', step s i = some s' → Always P rest s'

/-- Every step that is taken meets the condition. -/
def Heeds (C : σ → ι → Prop) : List ι → σ → Prop
  | [], _ => True
  | i :: rest, s => ∀ s', step s i = some s' → C s i ∧ Heeds C rest s'

/-- The state after the run, if every step can be taken. -/
def run : List ι → σ → Option σ
  | [], s => some s
  | i :: rest, s => (step s i).bind (run rest)

variable {step} {Inv P : σ → Prop} {C : σ → ι → Prop}

variable {steps : List ι} {s : σ}

/-- **An invariant that heeding steps keep holds always.** -/
theorem always_of_heeds (hstep : ∀ {s i s'}, Inv s → C s i → step s i = some s' → Inv s')
    (hs : Inv s) (h : Heeds step C steps s) : Always step Inv steps s := by
  induction steps generalizing s with
  | nil => exact hs
  | cons i rest ih =>
    refine ⟨hs, fun s' hs' => ?_⟩
    obtain ⟨hi, hrest⟩ := h s' hs'
    exact ih (hstep hs hi hs') hrest

theorem Always.mono (hPQ : ∀ s, Inv s → P s)
    (h : Always step Inv steps s) : Always step P steps s := by
  induction steps generalizing s with
  | nil => exact hPQ s h
  | cons i rest ih => exact ⟨hPQ s h.1, fun s' hs' => ih (h.2 s' hs')⟩

theorem Heeds.mono {D : σ → ι → Prop} (hCD : ∀ s i, C s i → D s i)
    (h : Heeds step C steps s) : Heeds step D steps s := by
  induction steps generalizing s with
  | nil => trivial
  | cons i rest ih =>
    intro s' hs'
    obtain ⟨hi, hrest⟩ := h s' hs'
    exact ⟨hCD s i hi, ih hrest⟩

/-- A condition on the steps alone. -/
theorem heeds_of_forall {D : ι → Prop} (h : ∀ i ∈ steps, D i) (s : σ) :
    Heeds step (fun _ i => D i) steps s := by
  induction steps generalizing s with
  | nil => trivial
  | cons i rest ih =>
    intro s' _
    exact ⟨h i List.mem_cons_self, ih (fun j hj => h j (List.mem_cons_of_mem i hj)) s'⟩

theorem Always.first (h : Always step P steps s) : P s := by
  cases steps with
  | nil => exact h
  | cons i rest => exact h.1

theorem Always.last {s' : σ} (h : Always step P steps s)
    (hrun : run step steps s = some s') : P s' := by
  induction steps generalizing s with
  | nil =>
    cases hrun
    exact h
  | cons i rest ih =>
    obtain ⟨middle, hmiddle, hrest⟩ := Option.bind_eq_some_iff.mp hrun
    exact ih (h.2 middle hmiddle) hrest

theorem run_append (steps more : List ι) (s : σ) :
    run step (steps ++ more) s = (run step steps s).bind (run step more) := by
  induction steps generalizing s with
  | nil => rfl
  | cons i rest ih =>
    change (step s i).bind (run step (rest ++ more)) = ((step s i).bind (run step rest)).bind _
    rw [Option.bind_assoc]
    exact congrArg (step s i).bind (funext ih)

/-- **An invariant that every step keeps holds at the end of a run.** -/
theorem invariant_run (hstep : ∀ {s i s'}, Inv s → step s i = some s' → Inv s')
    {s' : σ} (hs : Inv s) (hrun : run step steps s = some s') : Inv s' :=
  (always_of_heeds (fun hs _ => hstep hs) hs (heeds_of_forall (fun _ _ => trivial) s)).last hrun

/-- **Where a step that does not meet the condition breaks the property**, the property holds always
in exactly the runs that heed the condition. -/
theorem always_iff_heeds (hstep : ∀ {s i s'}, Inv s → C s i → step s i = some s' → Inv s')
    (hexact : ∀ {s i s'}, Inv s → step s i = some s' → P s' → C s i) (hP : ∀ s, Inv s → P s)
    (hs : Inv s) : Always step P steps s ↔ Heeds step C steps s := by
  refine ⟨fun h => ?_, fun h => (always_of_heeds hstep hs h).mono hP⟩
  induction steps generalizing s with
  | nil => trivial
  | cons i rest ih =>
    intro s' hs'
    have hrest := h.2 s' hs'
    have hi := hexact hs hs' hrest.first
    exact ⟨hi, ih (hstep hs hi hs') hrest⟩

end Machine
