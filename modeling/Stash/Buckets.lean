import Mathlib.Data.Finset.Card

/-!
# Buckets

A table that keeps a set of members under each of its names, and no name without a member.  Entering
makes the bucket if there is none, leaving drops it when it gets empty.
-/

namespace Buckets

open Function

variable {α β : Type} [DecidableEq α] [DecidableEq β]

/-- A table from names to sets of members. -/
abbrev Table (α β : Type) := α → Option (Finset β)

/-- The member is in the bucket of the name. -/
def Has (t : Table α β) (name : α) (member : β) : Prop :=
  ∃ members, t name = some members ∧ member ∈ members

/-- No bucket is empty. -/
def Filled (t : Table α β) : Prop :=
  ∀ name, t name ≠ some ∅

def enter (t : Table α β) (name : α) (member : β) : Table α β :=
  Function.update t name (some (insert member ((t name).getD ∅)))

def leave (t : Table α β) (name : α) (member : β) : Table α β :=
  match t name with
  | none => t
  | some members =>
    Function.update t name (if members.erase member = ∅ then none else some (members.erase member))

variable {t : Table α β} {name : α} {m member : β}

theorem has_enter {other : α} :
    Has (enter t name member) other m ↔ Has t other m ∨ other = name ∧ m = member := by
  unfold Has enter
  by_cases hname : other = name
  · subst hname
    rw [update_self]
    cases t other with
    | none => simp
    | some members => simp [or_comm]
  · rw [update_of_ne hname]
    simp [hname]

theorem has_leave {other : α} :
    Has (leave t name member) other m ↔ Has t other m ∧ ¬(other = name ∧ m = member) := by
  unfold Has leave
  cases hbucket : t name with
  | none =>
    simp only
    constructor
    · rintro ⟨members, hmembers, hm⟩
      refine ⟨⟨members, hmembers, hm⟩, ?_⟩
      rintro ⟨rfl, -⟩
      rw [hbucket] at hmembers
      cases hmembers
    · exact And.left
  | some members =>
    simp only
    by_cases hname : other = name
    · subst hname
      rw [update_self, hbucket]
      by_cases hempty : members.erase member = ∅
      · have hnone : ∀ m ∈ members, m = member := by
          intro m hm
          by_contra hne
          have herased := Finset.mem_erase.mpr ⟨hne, hm⟩
          rw [hempty] at herased
          exact absurd herased (Finset.notMem_empty m)
        simp only [if_pos hempty, reduceCtorEq, false_and, exists_false, Option.some.injEq,
          exists_eq_left', true_and, false_iff, not_and, not_not]
        exact hnone m
      · simp only [if_neg hempty, Option.some.injEq, exists_eq_left', Finset.mem_erase, true_and]
        exact and_comm
    · rw [update_of_ne hname]
      simp [hname]

theorem Filled.enter (h : Filled t) (name : α) (member : β) : Filled (enter t name member) := by
  intro other
  unfold Buckets.enter
  by_cases hname : other = name
  · subst hname
    rw [update_self]
    simp
  · rw [update_of_ne hname]
    exact h other

theorem Filled.leave (h : Filled t) (name : α) (member : β) : Filled (leave t name member) := by
  intro other
  unfold Buckets.leave
  cases hbucket : t name with
  | none => exact h other
  | some members =>
    simp only
    by_cases hname : other = name
    · subst hname
      rw [update_self]
      split
      · simp
      · rename_i hne
        simpa using hne
    · rw [update_of_ne hname]
      exact h other

/-! ## Several names -/

/-- Enter the buckets of several names. -/
def enterAll (t : Table α β) (names : List α) (member : β) : Table α β :=
  names.foldl (fun t name => enter t name member) t

/-- Leave the buckets of several names. -/
def leaveAll (t : Table α β) (names : List α) (member : β) : Table α β :=
  names.foldl (fun t name => leave t name member) t

theorem has_enterAll {names : List α} :
    Has (enterAll t names member) name m ↔ Has t name m ∨ name ∈ names ∧ m = member := by
  unfold enterAll
  induction names generalizing t with
  | nil => simp
  | cons first names ih =>
    rw [List.foldl_cons, ih, has_enter, List.mem_cons]
    tauto

theorem has_leaveAll {names : List α} :
    Has (leaveAll t names member) name m ↔ Has t name m ∧ ¬(name ∈ names ∧ m = member) := by
  unfold leaveAll
  induction names generalizing t with
  | nil => simp
  | cons first names ih =>
    rw [List.foldl_cons, ih, has_leave, List.mem_cons]
    tauto

theorem Filled.enterAll (h : Filled t) (names : List α) (member : β) :
    Filled (enterAll t names member) := by
  unfold Buckets.enterAll
  induction names generalizing t with
  | nil => exact h
  | cons first names ih => exact ih (h.enter first member)

theorem Filled.leaveAll (h : Filled t) (names : List α) (member : β) :
    Filled (leaveAll t names member) := by
  unfold Buckets.leaveAll
  induction names generalizing t with
  | nil => exact h
  | cons first names ih => exact ih (h.leave first member)

end Buckets
