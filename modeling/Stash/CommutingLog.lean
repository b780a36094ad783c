import Mathlib.Data.Set.Basic

/-!
# Logs of partial updates

A record updates a state or fails on it; a log is run record by record and ends at the first
failure.  Records that commute on every state can be exchanged in a log (`run_append_comm`), so a
batch of records can be moved in front of batches it commutes with (`run_promote`).  When states are
functions of a key, records that read and write disjoint sets of keys commute (`Local.commute`).
-/

namespace CommutingLog

open List

variable {σ ρ : Type}

/-- Run a log on a state. -/
def run (act : ρ → σ → Option σ) : List ρ → σ → Option σ
  | [], s => some s
  | r :: rs, s => (act r s).bind (run act rs)

variable {act : ρ → σ → Option σ}

theorem run_append (xs ys : List ρ) (s : σ) :
    run act (xs ++ ys) s = (run act xs s).bind (run act ys) := by
  induction xs generalizing s with
  | nil => rfl
  | cons x xs ih =>
    rw [cons_append, run, run, Option.bind_assoc]
    congr 1
    funext s'
    exact ih s'

theorem run_singleton (r : ρ) (s : σ) : run act [r] s = act r s := by
  rw [run]
  cases act r s <;> rfl

/-- Two records commute on every state, failures included. -/
def Independent (act : ρ → σ → Option σ) (a b : ρ) : Prop :=
  ∀ s, (act a s).bind (act b) = (act b s).bind (act a)

theorem run_cons_comm {a : ρ} {ys : List ρ} (h : ∀ b ∈ ys, Independent act a b) (s : σ) :
    run act (a :: ys) s = run act (ys ++ [a]) s := by
  induction ys generalizing s with
  | nil => rfl
  | cons b ys ih =>
    have hswap : run act (a :: b :: ys) s = run act (b :: a :: ys) s := by
      change (act a s).bind (fun t => (act b t).bind (run act ys)) =
        (act b s).bind (fun t => (act a t).bind (run act ys))
      rw [← Option.bind_assoc, ← Option.bind_assoc]
      exact congrArg (fun o => Option.bind o (run act ys)) (h b mem_cons_self s)
    rw [hswap, run, cons_append, run]
    congr 1
    funext s'
    exact ih (fun c hc => h c (mem_cons_of_mem _ hc)) s'

/-- **Batches that commute can be exchanged.** -/
theorem run_append_comm {xs ys : List ρ} (h : ∀ a ∈ xs, ∀ b ∈ ys, Independent act a b) (s : σ) :
    run act (xs ++ ys) s = run act (ys ++ xs) s := by
  induction xs generalizing s with
  | nil => rw [append_nil]; rfl
  | cons a xs ih =>
    have hrest : ∀ s', run act (xs ++ ys) s' = run act (ys ++ xs) s' :=
      ih fun c hc => h c (mem_cons_of_mem _ hc)
    calc run act (a :: xs ++ ys) s
        = (act a s).bind (run act (xs ++ ys)) := rfl
      _ = (act a s).bind (run act (ys ++ xs)) := by rw [funext hrest]
      _ = run act ((a :: ys) ++ xs) s := rfl
      _ = (run act (a :: ys) s).bind (run act xs) := run_append _ _ _
      _ = (run act (ys ++ [a]) s).bind (run act xs) := by
          rw [run_cons_comm (h a mem_cons_self)]
      _ = run act (ys ++ a :: xs) s := by
          rw [← run_append, append_assoc]; rfl

/-- **A batch that commutes with the records before it can be logged before them.** -/
theorem run_promote (log : List ρ) {before batch : List ρ} (after : List ρ)
    (h : ∀ a ∈ before, ∀ b ∈ batch, Independent act a b) (s : σ) :
    run act (log ++ (before ++ (batch ++ after))) s =
      run act (log ++ (batch ++ (before ++ after))) s := by
  have hexchange : run act (before ++ batch) = run act (batch ++ before) :=
    funext (run_append_comm h)
  rw [← append_assoc before, ← append_assoc batch, run_append, run_append log]
  congr 1
  funext s'
  rw [run_append (before ++ batch), run_append (batch ++ before), hexchange]

/-! ## Records over keys -/

variable {κ α : Type}

/-- An update that reads and writes only some keys. -/
structure Local (f : (κ → α) → Option (κ → α)) (keys : Set κ) : Prop where
  frame : ∀ s s', f s = some s' → ∀ k, k ∉ keys → s' k = s k
  congr : ∀ s t s', (∀ k ∈ keys, t k = s k) → f s = some s' →
    ∃ t', f t = some t' ∧ ∀ k ∈ keys, t' k = s' k

/-- **Updates of disjoint sets of keys commute.** -/
theorem Local.commute {f g : (κ → α) → Option (κ → α)} {A B : Set κ} (hf : Local f A)
    (hg : Local g B) (hdisjoint : ∀ k ∈ A, k ∉ B) (s : κ → α) : (f s).bind g = (g s).bind f := by
  have hout : ∀ {k}, k ∈ A → k ∉ B := fun ha => hdisjoint _ ha
  have hout' : ∀ {k}, k ∈ B → k ∉ A := fun hb ha => hdisjoint _ ha hb
  cases hfs : f s with
  | none =>
    cases hgs : g s with
    | none => rfl
    | some t =>
      -- if `f` succeeded after `g`, it would have succeeded before
      cases hft : f t with
      | none => exact hft.symm
      | some t' =>
        obtain ⟨s', hs', -⟩ := hf.congr t s t' (fun k hk => (hg.frame s t hgs k (hout hk)).symm) hft
        rw [hfs] at hs'
        cases hs'
  | some s₁ =>
    have hbefore : ∀ k ∈ B, s₁ k = s k := fun k hk => hf.frame s s₁ hfs k (hout' hk)
    cases hgs : g s with
    | none =>
      cases hgs₁ : g s₁ with
      | none => exact hgs₁
      | some t =>
        obtain ⟨s', hs', -⟩ := hg.congr s₁ s t (fun k hk => (hbefore k hk).symm) hgs₁
        rw [hgs] at hs'
        cases hs'
    | some s₂ =>
      obtain ⟨u, hu, hub⟩ := hg.congr s s₁ s₂ hbefore hgs
      obtain ⟨v, hv, hva⟩ := hf.congr s s₂ s₁ (fun k hk => hg.frame s s₂ hgs k (hout hk)) hfs
      change g s₁ = f s₂
      rw [hu, hv]
      congr 1
      funext k
      by_cases hka : k ∈ A
      · rw [hva k hka, hg.frame s₁ u hu k (hout hka)]
      · rw [hf.frame s₂ v hv k hka]
        by_cases hkb : k ∈ B
        · exact hub k hkb
        · rw [hg.frame s₁ u hu k hkb, hf.frame s s₁ hfs k hka, hg.frame s s₂ hgs k hkb]

end CommutingLog
