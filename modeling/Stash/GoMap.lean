import Mathlib.Data.List.AList
import Mathlib.Data.List.Induction
import Mathlib.Data.List.Nodup
import Mathlib.Logic.Function.Basic

/-!
# Maps that are iterated in an unspecified order

A hash map whose iteration order the language leaves open.  The map is an association list
without duplicate keys; an iteration goes through its keys in the order some `MapOrder` chooses.
The order is arbitrary, but every key is visited once, which is all that the results of an
iteration may rely on.

The meaning of a map is its lookup function.  Assigning a list of pairs one after the other is
`assign` on that function, and removing a list of keys is `unassign`.
-/

namespace GoMap

open List Function

variable {α β : Type} [DecidableEq α]

/-- A map from `α` to `β`. -/
abbrev Map (α β : Type) [DecidableEq α] := AList (fun _ : α => β)

/-- A choice of iteration orders: every list of keys is visited in some order. -/
structure MapOrder (α : Type) where
  arrange : List α → List α
  perm : ∀ keys, (arrange keys).Perm keys

/-- The order in which the keys were written down. -/
def MapOrder.id (α : Type) : MapOrder α :=
  ⟨fun keys => keys, fun _ => .refl _⟩

/-- The pairs of a map in the order of the iteration. -/
def iterate (order : MapOrder α) (m : Map α β) : List (α × β) :=
  (order.arrange m.keys).filterMap fun key => (m.lookup key).map fun value => (key, value)

variable {m : Map α β}

theorem mem_iterate {order : MapOrder α} {key : α} {value : β} :
    (key, value) ∈ iterate order m ↔ m.lookup key = some value := by
  rw [iterate, mem_filterMap]
  constructor
  · rintro ⟨k, -, h⟩
    obtain ⟨v, hv, hpair⟩ := Option.map_eq_some_iff.mp h
    obtain ⟨rfl, rfl⟩ := Prod.mk.inj hpair
    exact hv
  · intro h
    refine ⟨key, ?_, by rw [h]; rfl⟩
    rw [(order.perm m.keys).mem_iff, ← AList.mem_keys, ← AList.lookup_isSome, h]
    rfl

theorem iterate_fst {order : MapOrder α} {m : Map α β} :
    (iterate order m).map Prod.fst = order.arrange m.keys := by
  rw [iterate, map_filterMap]
  have hsome : ∀ key ∈ order.arrange m.keys,
      ((m.lookup key).map fun value => (key, value)).map Prod.fst = some key := by
    intro key hkey
    rw [(order.perm m.keys).mem_iff, ← AList.mem_keys, ← AList.lookup_isSome] at hkey
    obtain ⟨value, hvalue⟩ := Option.isSome_iff_exists.mp hkey
    rw [hvalue]
    rfl
  rw [filterMap_congr hsome, filterMap_some]

theorem nodup_iterate {order : MapOrder α} : ((iterate order m).map Prod.fst).Nodup := by
  rw [iterate_fst, (order.perm m.keys).nodup_iff]
  exact m.keys_nodup

/-- The lookup function as a map in its own right. -/
theorem keys_eq_nil_iff : m.keys = [] ↔ ∀ key, m.lookup key = none := by
  constructor
  · intro h key
    rw [AList.lookup_eq_none, AList.mem_keys, h]
    exact not_mem_nil
  · intro h
    refine eq_nil_iff_forall_not_mem.mpr fun key hkey => ?_
    exact AList.lookup_eq_none.mp (h key) hkey

/-! ## Assigning and removing -/

/-- Assign pairs one after the other; the last one for a key counts. -/
def assign (f : α → Option β) (pairs : List (α × β)) : α → Option β :=
  pairs.foldl (fun f pair => update f pair.1 (some pair.2)) f

/-- Remove keys one after the other. -/
def unassign (f : α → Option β) (keys : List α) : α → Option β :=
  keys.foldl (fun f key => update f key none) f

variable (f : α → Option β) (order : MapOrder α) (pairs : List (α × β)) (keys : List α)
    (m : Map α β) (key : α)

theorem lookup_insert_eq (value : β) :
    (fun k => (m.insert key value).lookup k) = update (fun k => m.lookup k) key (some value) := by
  funext k
  by_cases h : k = key
  · subst h
    rw [AList.lookup_insert, update_self]
  · rw [AList.lookup_insert_ne h, update_of_ne h]

theorem lookup_erase_eq :
    (fun k => (m.erase key).lookup k) = update (fun k => m.lookup k) key none := by
  funext k
  by_cases h : k = key
  · subst h
    rw [AList.lookup_erase, update_self]
  · rw [AList.lookup_erase_ne h, update_of_ne h]

theorem lookup_foldl_insert :
    (fun k => (pairs.foldl (fun m pair => m.insert pair.1 pair.2) m).lookup k) =
      assign (fun k => m.lookup k) pairs := by
  induction pairs generalizing m with
  | nil => rfl
  | cons pair pairs ih =>
    rw [foldl_cons, ih, lookup_insert_eq]
    rfl

theorem lookup_foldl_erase :
    (fun k => (keys.foldl (fun m key => m.erase key) m).lookup k) =
      unassign (fun k => m.lookup k) keys := by
  induction keys generalizing m with
  | nil => rfl
  | cons key keys ih =>
    rw [foldl_cons, ih, lookup_erase_eq]
    rfl

/-- The value a key has after the assignments: that of its last pair, if there is one. -/
theorem assign_apply :
    assign f pairs key =
      ((pairs.reverse.find? fun pair => pair.1 = key).map Prod.snd).or (f key) := by
  induction pairs using List.reverseRecOn with
  | nil => rfl
  | append_singleton pairs pair ih =>
    have hstep : assign f (pairs ++ [pair]) = update (assign f pairs) pair.1 (some pair.2) := by
      simp [assign]
    rw [hstep, reverse_append, reverse_singleton, singleton_append]
    by_cases h : pair.1 = key
    · rw [← h, update_self, List.find?_cons_of_pos (by simp)]
      rfl
    · rw [update_of_ne (Ne.symm h), List.find?_cons_of_neg (by simpa using h), ih]

theorem isSome_assign_iff :
    (assign f pairs key).isSome ↔ (f key).isSome ∨ key ∈ pairs.map Prod.fst := by
  have hfound : (pairs.reverse.find? fun pair => pair.1 = key).isSome ↔
      key ∈ pairs.map Prod.fst := by
    rw [List.find?_isSome, mem_map]
    simp only [mem_reverse, decide_eq_true_eq]
  rw [assign_apply, Option.isSome_or, Option.isSome_map, Bool.or_eq_true, hfound, or_comm]

theorem isSome_assign_of_mem {pairs : List (α × β)} {pair : α × β}
    (h : pair ∈ pairs) : (assign f pairs pair.1).isSome :=
  (isSome_assign_iff f pairs pair.1).mpr (.inr (mem_map_of_mem h))

theorem unassign_apply : unassign f keys key = if key ∈ keys then none else f key := by
  unfold unassign
  induction keys generalizing f with
  | nil => simp
  | cons first keys ih =>
    rw [foldl_cons, ih]
    by_cases hkey : key = first
    · subst hkey
      simp
    · simp [hkey]

theorem assign_eq_some_iff {pairs : List (α × β)} (hnodup : (pairs.map Prod.fst).Nodup) {key : α}
    {value : β} : assign (fun _ => none) pairs key = some value ↔ (key, value) ∈ pairs := by
  rw [assign_apply, Option.or_none, Option.map_eq_some_iff]
  constructor
  · rintro ⟨⟨k, v⟩, hfind, rfl⟩
    have hk : k = key := by simpa using List.find?_some hfind
    have hmem := mem_of_find?_eq_some hfind
    rw [hk, mem_reverse] at hmem
    exact hmem
  · intro hmem
    have hsome : (pairs.reverse.find? fun pair => pair.1 = key).isSome := by
      rw [List.find?_isSome]
      exact ⟨(key, value), mem_reverse.mpr hmem, by simp⟩
    obtain ⟨⟨k, v⟩, hfind⟩ := Option.isSome_iff_exists.mp hsome
    refine ⟨(k, v), hfind, ?_⟩
    have hk : k = key := by simpa using List.find?_some hfind
    have hmem' := mem_of_find?_eq_some hfind
    rw [hk, mem_reverse] at hmem'
    exact (Prod.mk.inj (inj_on_of_nodup_map hnodup hmem' hmem rfl)).2

theorem assign_iterate : assign (fun _ => none) (iterate order m) = fun k => m.lookup k := by
  funext key
  refine Option.ext fun value => ?_
  rw [assign_eq_some_iff nodup_iterate, mem_iterate]

/-! ## Sizes -/

theorem length_keys_erase :
    (m.erase key).keys.length + (if (m.lookup key).isSome then 1 else 0) = m.keys.length := by
  rw [AList.keys_erase]
  by_cases hkey : key ∈ m.keys
  · have hpos := length_pos_of_mem hkey
    rw [if_pos (AList.lookup_isSome.mpr hkey), length_erase_of_mem hkey]
    omega
  · rw [if_neg (mt AList.lookup_isSome.mp hkey), erase_of_not_mem hkey]
    rfl

theorem length_keys_insert (value : β) :
    (m.insert key value).keys.length = m.keys.length + if (m.lookup key).isSome then 0 else 1 := by
  rw [AList.keys_insert, length_cons, ← AList.keys_erase, ← length_keys_erase m key]
  split <;> rfl

/-- Pairs with distinct keys are determined by their assignment, up to order. -/
theorem perm_of_assign_eq {pairs pairs' : List (α × β)} (h : (pairs.map Prod.fst).Nodup)
    (h' : (pairs'.map Prod.fst).Nodup)
    (heq : assign (fun _ => none) pairs = assign (fun _ => none) pairs') : pairs.Perm pairs' := by
  refine (perm_ext_iff_of_nodup h.of_map h'.of_map).mpr fun pair => ?_
  rw [← assign_eq_some_iff h, ← assign_eq_some_iff h', heq]

/-- What was added to two things that were and are of the same size. -/
theorem added_congr {before before' after after' added added' : Nat} (h : after = before + added)
    (h' : after' = before' + added') (hbefore : before = before') (hafter : after = after') :
    added = added' := by
  omega

/-- A loop that adds and counts what was not known counts by how much it has grown. -/
theorem foldl_count_new {σ ι : Type} (size : σ → Nat) {step : σ → ι → σ} (known : σ → ι → Bool)
    (hstep : ∀ s x, size (step s x) = size s + if known s x then 0 else 1) (xs : List ι) (s : σ)
    (n : Nat) :
    size (xs.foldl (fun acc x => (step acc.1 x, if known acc.1 x then acc.2 else acc.2 + 1))
        (s, n)).1 + n =
      size s + (xs.foldl
        (fun acc x => (step acc.1 x, if known acc.1 x then acc.2 else acc.2 + 1)) (s, n)).2 := by
  induction xs generalizing s n with
  | nil => rfl
  | cons x xs ih =>
    have hx := hstep s x
    rw [foldl_cons]
    by_cases hknown : known s x = true
    · have htail := ih (step s x) n
      simp only [hknown, if_true] at hx htail ⊢
      omega
    · have htail := ih (step s x) (n + 1)
      simp only [hknown, Bool.false_eq_true, if_false] at hx htail ⊢
      omega

/-- A loop that removes and counts what was known counts by how much it has shrunk. -/
theorem foldl_count_gone {σ ι : Type} (size : σ → Nat) {step : σ → ι → σ} (known : σ → ι → Bool)
    (hstep : ∀ s x, size (step s x) + (if known s x then 1 else 0) = size s) (xs : List ι) (s : σ)
    (n : Nat) :
    size (xs.foldl (fun acc x => (step acc.1 x, if known acc.1 x then acc.2 + 1 else acc.2))
        (s, n)).1 + (xs.foldl
          (fun acc x => (step acc.1 x, if known acc.1 x then acc.2 + 1 else acc.2)) (s, n)).2 =
      size s + n := by
  induction xs generalizing s n with
  | nil => rfl
  | cons x xs ih =>
    have hx := hstep s x
    rw [foldl_cons]
    by_cases hknown : known s x = true
    · have htail := ih (step s x) (n + 1)
      simp only [hknown, if_true] at hx htail ⊢
      omega
    · have htail := ih (step s x) n
      simp only [hknown, Bool.false_eq_true, if_false] at hx htail ⊢
      omega

/-! ## Copies -/

/-- A map that is filled by an iteration over another one. -/
def rebuild (order : MapOrder α) (m : Map α β) : Map α β :=
  (iterate order m).foldl (fun copy pair => copy.insert pair.1 pair.2) ∅

theorem lookup_rebuild : (fun k => (rebuild order m).lookup k) = fun k => m.lookup k := by
  rw [rebuild, lookup_foldl_insert]
  exact assign_iterate order m

end GoMap
