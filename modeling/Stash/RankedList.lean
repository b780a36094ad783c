import Mathlib.Data.List.Sort
import Mathlib.Data.List.Nodup
import Mathlib.Data.List.Perm.Basic
import Mathlib.Order.Defs.LinearOrder

/-!
# Lists of named entries in the order of a rank

Entries have a name and a rank; equal ranks belong to equal names.  A list is `Ordered` when its
entries have distinct names and stand in strictly increasing rank.  Such a list is determined by
its members, so two ways of keeping entries in order agree as soon as they hold the same ones.
-/

namespace RankedList

open List

variable {ε ν ρ : Type} [LinearOrder ρ] {name : ε → ν} {rank : ε → ρ}

/-- Distinct names, strictly increasing rank. -/
structure Ordered (name : ε → ν) (rank : ε → ρ) (l : List ε) : Prop where
  sorted : l.Pairwise fun a b => rank a < rank b
  distinct : (l.map name).Nodup

theorem ordered_nil : Ordered name rank [] :=
  ⟨List.Pairwise.nil, nodup_nil⟩

theorem Ordered.nodup {l : List ε} (h : Ordered name rank l) : l.Nodup :=
  h.distinct.of_map

/-- The entry of a name is unique. -/
theorem Ordered.eq_of_name {l : List ε} (h : Ordered name rank l) {a b : ε} (ha : a ∈ l)
    (hb : b ∈ l) (hname : name a = name b) : a = b :=
  inj_on_of_nodup_map h.distinct ha hb hname

/-- **An ordered list is determined by its members.** -/
theorem Ordered.ext {l l' : List ε} (h : Ordered name rank l) (h' : Ordered name rank l')
    (hmem : ∀ x, x ∈ l ↔ x ∈ l') : l = l' := by
  have hperm : l.Perm l' := (perm_ext_iff_of_nodup h.nodup h'.nodup).mpr hmem
  refine hperm.eq_of_pairwise (fun a b _ _ hab hba => ?_) h.sorted h'.sorted
  exact absurd (hab.trans hba) (lt_irrefl _)

section Sorting

variable (hrank : ∀ a b, rank a = rank b → name a = name b)
include hrank

theorem ordered_of_le {l : List ε} (hsorted : l.Pairwise fun a b => rank a ≤ rank b)
    (hdistinct : (l.map name).Nodup) : Ordered name rank l := by
  have hnames : l.Pairwise fun a b => name a ≠ name b := pairwise_map.mp hdistinct
  refine ⟨(hsorted.and hnames).imp fun {a b} h => ?_, hdistinct⟩
  exact lt_of_le_of_ne h.1 fun heq => h.2 (hrank a b heq)

theorem ordered_insertionSort {l : List ε} (h : (l.map name).Nodup) :
    Ordered name rank (l.insertionSort fun a b => rank a ≤ rank b) := by
  have : Std.Total (fun a b : ε => rank a ≤ rank b) := ⟨fun a b => le_total _ _⟩
  have : IsTrans ε fun a b => rank a ≤ rank b := ⟨fun _ _ _ => le_trans⟩
  refine ordered_of_le hrank (pairwise_insertionSort _ l) ?_
  rw [((perm_insertionSort _ l).map name).nodup_iff]
  exact h

end Sorting

/-! ## Putting an entry at its place -/

variable [DecidableEq ν]

/-- Put an entry at its place, instead of the one with its name if there is one. -/
def put (name : ε → ν) (rank : ε → ρ) (l : List ε) (e : ε) : List ε :=
  (l.filter fun x => name x ≠ name e).orderedInsert (fun a b => rank a ≤ rank b) e

theorem mem_put {l : List ε} {e x : ε} :
    x ∈ put name rank l e ↔ x = e ∨ x ∈ l ∧ name x ≠ name e := by
  rw [put, mem_orderedInsert, mem_filter, decide_eq_true_eq]

theorem ordered_put (hrank : ∀ a b, rank a = rank b → name a = name b) {l : List ε}
    (h : Ordered name rank l) (e : ε) : Ordered name rank (put name rank l e) := by
  have : Std.Total (fun a b : ε => rank a ≤ rank b) := ⟨fun a b => le_total _ _⟩
  have : IsTrans ε fun a b => rank a ≤ rank b := ⟨fun _ _ _ => le_trans⟩
  have hle : l.Pairwise fun a b => rank a ≤ rank b := h.sorted.imp fun h => h.le
  refine ordered_of_le hrank (List.Pairwise.orderedInsert e _ (hle.filter _)) ?_
  have hperm : (put name rank l e).Perm (e :: l.filter fun x => name x ≠ name e) :=
    perm_orderedInsert _ _ _
  rw [(hperm.map name).nodup_iff, map_cons, nodup_cons]
  refine ⟨?_, h.distinct.sublist (filter_sublist.map name)⟩
  intro hmem
  obtain ⟨x, hx, hname⟩ := mem_map.mp hmem
  exact absurd hname (by simpa using (mem_filter.mp hx).2)

end RankedList
